-- SUMMARY: The whole store, what one closure stages onto a transaction, and the batch that commits share.
import Moraine.Transaction.IndexMaintenance
import Moraine.Transaction.InlineStaging
import Moraine.Transaction.ViewFold

/-!
# Batches

A commit runs its closure on a view of the head and stages the writes onto an open store transaction, which sees
its own writes. Several commits share one transaction: each later one runs on the view of the first with the
writes staged so far folded in, its premise. `Batch.stage` stages a caller's closures one after another.
-/

namespace Moraine

open Std (ExtTreeMap ExtTreeSet TransOrd LawfulEqOrd)
open OrdMap CatalogSnapshot

/-! ## The store -/

/-- The whole store: the catalog, the index entries, the inline records and the recorded format. -/
structure StoreState (Row : Type) where
  catalog : Store
  entries : IndexEntries := {}
  inline : InlineStore Row := {}
  format : Option Nat := none

/-- The state a store transaction sees. -/
abbrev DbState := StoreState ArrowRow

def FORMAT_VERSION : Nat := 1

/-- The format of a store with indexes. -/
def FORMAT_WITH_INDEX : Nat := 2

/-- The format of a store with an index still being built. -/
def FORMAT_WITH_STAGED_INDEX : Nat := 3

/-- The format of a store with an index whose upkeep is deferred. -/
def FORMAT_WITH_DEFERRED_INDEX : Nat := 4

/-- The store format the staged state requires. -/
def targetFormat (state : CatalogSnapshot) : Nat :=
  let indexes := state.indexes.values.flatMap (·.values)
  if indexes.any (·.deferredMaintenance == some true) then FORMAT_WITH_DEFERRED_INDEX
  else if indexes.any (·.buildState.isSome) then FORMAT_WITH_STAGED_INDEX
  else if state.indexes.values.any (!·.isEmpty) then FORMAT_WITH_INDEX
  else FORMAT_VERSION

/-- The format a commit records, if it owes one. The stamp only moves forward. -/
def formatStamp (recorded : Option Nat) (state : CatalogSnapshot) : Option Nat :=
  let target := targetFormat state
  if target ≤ FORMAT_VERSION then none
  else if recorded.getD FORMAT_VERSION ≥ target then none
  else some target

/-! ## One closure -/

/-- A commit's closure, and the clock when it is staged. -/
structure Request where
  micros : Int
  closure : Verb Unit

/-- What one closure leaves on the transaction. -/
inductive Staged where
  /-- It changed nothing. -/
  | nothing (head : Nat)
  /-- The snapshot id it reports once landed, what it commits, and the transaction with all it staged. -/
  | writes (commits : Nat) (m : Member) (db : DbState)

section Stage

/- `changes` gives the change-set text of the recorded operations and the data files they delete from. -/
variable (changes : List Operation → String × List Nat)

/-- What a transaction with no recorded operation leaves: its changed options, and the head again. -/
def stageOptions (db : DbState) (base : CatalogSnapshot) (tx : Transaction) : Staged :=
  let writes := diffOptions base tx.state
  if writes.isEmpty then .nothing base.snapshot.snapshotId
  else .writes base.snapshot.snapshotId ⟨writes, none⟩ { db with catalog := db.catalog.commit ⟨writes, none⟩ }

/-- What a transaction with recorded operations leaves. Index entries and inline records are resolved against
    the transaction as it stood before. -/
def stageMinting (db : DbState) (base : CatalogSnapshot) (micros : Int) (tx : Transaction) : Except Error Staged := do
  let (entries, poisoned) ← db.entries.stageIndexEntries tx.indexEntries
  let inlineWrites ← db.inline.stageInlineWrites tx.inlineOps
  let m := mintingMember base poisoned changes micros tx
  return .writes (base.snapshot.snapshotId + 1) m
    { catalog := db.catalog.commit m
      entries := entries
      inline := db.inline.applyAll inlineWrites
      format := (formatStamp db.format (applyPoison tx.state poisoned)).or db.format }

/-- Runs the closure on the view `base` and stages what it leaves. -/
def stageClosure (db : DbState) (base : CatalogSnapshot) (r : Request) : Except Error Staged :=
  match r.closure (.new base (base.snapshot.snapshotId + 1)) with
  | .error e _ => .error e
  | .ok _ tx => if tx.ops.isEmpty then .ok (stageOptions db base tx) else stageMinting changes db base r.micros tx

/-! ## A batch -/

/-- A batch being formed. -/
structure Batch where
  db : DbState
  /-- The head view the batch opened at. -/
  base : CatalogSnapshot
  /-- The base with the writes staged so far folded in; absent until a second member needs it. -/
  premise : Option CatalogSnapshot := none
  /-- How much of `writes` the premise reflects. -/
  folded : Nat := 0
  headBefore : Nat
  /-- The id the batch will leave at the head. -/
  head : Nat
  members : Nat := 0
  writes : List StagedWrite := []

namespace Batch

/-- A batch on a transaction that sees `db`, with the head view `base`. -/
def opened (db : DbState) (base : CatalogSnapshot) : Batch :=
  { db := db, base := base, headBefore := base.snapshot.snapshotId, head := base.snapshot.snapshotId }

/-- The view the next member runs on. -/
def view (b : Batch) : CatalogSnapshot := b.premise.getD b.base

/-- Folds in what was staged since the premise was last folded. -/
def refold (b : Batch) : Except Error Batch :=
  if b.folded = b.writes.length then .ok b
  else (b.view.foldBatch (b.writes.drop b.folded)).map fun premise =>
    { b with premise := some premise, folded := b.writes.length }

/-- The batch with what a member left, and the id the member reports. -/
def add (b : Batch) : Staged → Batch × Nat
  | .nothing head => (b, head)
  | .writes commits m db =>
    ({ b with head := commits, writes := b.writes ++ m.batch b.db.catalog, db := db }, commits)

def stageMember (b : Batch) (r : Request) : Except Error (Batch × Nat) := do
  let b ← Batch.refold { b with members := b.members + 1 }
  let staged ← stageClosure changes b.db b.view r
  return b.add staged

/-- Stages every member in turn. An error comes with the batch as the failing member found it. -/
def stage (b : Batch) : List Request → Except (Error × Batch) (Batch × List Nat)
  | [] => .ok (b, [])
  | r :: rs =>
    match b.stageMember changes r with
    | .error e => .error (e, b)
    | .ok (b, id) => (b.stage rs).map fun (b, ids) => (b, id :: ids)

end Batch

end Stage

/-! ## Stamps -/

namespace Member

/-- Every batch has its head write. -/
theorem batch_ne_nil (s : Store) (m : Member) : m.batch s ≠ [] := by
  unfold batch
  split <;> simp

variable {s : Store} {m : Member} (hm : ∀ w ∈ m.writes, w.isEntity)
include hm

/-- A fold of a member's batch takes the snapshot the member mints, if any, and counts one batch more. -/
theorem stamps_foldBatch {base view : CatalogSnapshot} (hfold : base.foldBatch (m.batch s) = .ok view) :
    view.snapshot = m.minted.getD base.snapshot ∧ view.batchSeq = s.head.batchSeq + 1 := by
  obtain ⟨hseq, hsnapshot⟩ := foldBatch_stamps (headStamp_batch s m) hfold
  rw [mintStamp_batch fun w hw => StagedWrite.isCatalog_of_isEntity (hm w hw)] at hsnapshot
  rw [Store.commit_head] at hseq hsnapshot
  refine ⟨?_, hseq⟩
  cases hminted : m.minted with
  | none => rw [hsnapshot, hminted]; rfl
  | some value => simp [hsnapshot, mintedId, hminted, Option.filter_some]

/-- A fold of a member's batch takes the view to the member's head. -/
theorem viewHead_foldBatch {base view : CatalogSnapshot} (hbase : base.viewHead = s.head)
    (hfold : base.foldBatch (m.batch s) = .ok view) : view.viewHead = (s.commit m).head := by
  obtain ⟨hsnapshot, hseq⟩ := stamps_foldBatch hm hfold
  rw [Store.commit_head, mintedId, viewHead, hsnapshot, hseq, ← hbase]
  cases m.minted <;> rfl

/-- A view with a state's live records takes a member's batch along to the state it leads to. -/
theorem lists_foldBatch {base view : CatalogSnapshot} (h : s.Lists base)
    (hfoldable : Foldable (currentWrites m.writes))
    (hlive : ∀ w ∈ currentWrites m.writes, ∀ r, w.2 = some r → isLive none r)
    (hfold : base.foldBatch (m.batch s) = .ok view) : (s.commit m).Lists view where
  snapshot := by
    rw [Store.commit_head, Store.commit_snapshots hm, (stamps_foldBatch hm hfold).1, mintedId]
    cases m.minted with
    | none => exact h.snapshot
    | some value => simp
  batchSeq := by rw [(stamps_foldBatch hm hfold).2, Store.commit_head]
  get := by
    refine h.get_foldBatch ?_ ?_ hfold
    · rw [Store.currentWrites_batch]
      exact hfoldable
    · rw [Store.currentWrites_batch]
      exact hlive

end Member

/-! ## What staging does -/

/-- What a closure staged on the view `base` can leave on a transaction that sees `db`. -/
def Staged.Follows (db : DbState) (base : CatalogSnapshot) : Staged → Prop
  | .nothing head => head = base.snapshot.snapshotId
  | .writes commits m db' => (∀ w ∈ m.writes, w.isEntity) ∧ db'.catalog = db.catalog.commit m ∧
      commits = m.mintedId.getD base.snapshot.snapshotId ∧
      ∀ id, m.mintedId = some id → id = base.snapshot.snapshotId + 1

section Staging

variable {changes : List Operation → String × List Nat} {db : DbState} {base : CatalogSnapshot} {r : Request}

/-- What a closure that succeeds stages: its changed options, or the minting member of its transaction. -/
theorem stageClosure_eq_ok {staged : Staged} (h : stageClosure changes db base r = .ok staged) :
    ∃ tx, r.closure (.new base (base.snapshot.snapshotId + 1)) = .ok () tx ∧
      (tx.ops = [] ∧ staged = stageOptions db base tx ∨
        tx.ops ≠ [] ∧ ∃ entries poisoned inlineWrites db',
          db.entries.stageIndexEntries tx.indexEntries = .ok (entries, poisoned) ∧
          db.inline.stageInlineWrites tx.inlineOps = .ok inlineWrites ∧
          db'.catalog = db.catalog.commit (mintingMember base poisoned changes r.micros tx) ∧
          db'.inline = db.inline.applyAll inlineWrites ∧
          staged = .writes (base.snapshot.snapshotId + 1) (mintingMember base poisoned changes r.micros tx) db') := by
  unfold stageClosure at h
  cases hrun : r.closure (.new base (base.snapshot.snapshotId + 1)) with
  | error e tx => rw [hrun] at h; cases h
  | ok u tx =>
    simp only [hrun] at h
    refine ⟨tx, rfl, ?_⟩
    split at h
    · next hempty =>
      cases h
      exact .inl ⟨List.isEmpty_iff.mp hempty, rfl⟩
    · next hempty =>
      obtain ⟨⟨entries, poisoned⟩, hentries, h⟩ := Results.bind_eq_ok.mp h
      obtain ⟨inlineWrites, hinline, h⟩ := Results.bind_eq_ok.mp h
      have hstaged := Except.ok.inj h
      refine .inr ⟨fun hnil => hempty (List.isEmpty_iff.mpr hnil), entries, poisoned, inlineWrites,
        { catalog := db.catalog.commit (mintingMember base poisoned changes r.micros tx)
          entries := entries
          inline := db.inline.applyAll inlineWrites
          format := (formatStamp db.format (applyPoison tx.state poisoned)).or db.format }, hentries, hinline, ?_⟩
      generalize mintingMember base poisoned changes r.micros tx = m at hstaged ⊢
      exact ⟨rfl, rfl, hstaged.symm⟩

theorem mintingMember_entity (base : CatalogSnapshot) (poisoned : List Nat) (micros : Int) (tx : Transaction) :
    ∀ w ∈ (mintingMember base poisoned changes micros tx).writes, w.isEntity := by
  intro w hw
  rcases List.mem_append.mp hw with hw | hw
  · exact diffWrites_entity _ _ _ w hw
  · obtain ⟨_, -, rfl⟩ := List.mem_map.mp hw
    rfl

theorem diffOptions_entity (base state : CatalogSnapshot) : ∀ w ∈ diffOptions base state, w.isEntity :=
  fun w hw => diffWrites_entity base state 0 w ((diffOptions_sublist base state 0).subset hw)

theorem stageClosure_follows {staged : Staged} (h : stageClosure changes db base r = .ok staged) :
    staged.Follows db base := by
  obtain ⟨tx, -, ⟨-, rfl⟩ | ⟨-, entries, poisoned, _, db', -, -, hdb, -, rfl⟩⟩ := stageClosure_eq_ok h
  · unfold stageOptions
    simp only
    split
    · rfl
    · exact ⟨diffOptions_entity base tx.state, rfl, rfl, fun id hid => by cases hid⟩
  · have hminted : (mintingMember base poisoned changes r.micros tx).mintedId =
        some (base.snapshot.snapshotId + 1) := by
      simp only [Member.mintedId, mintingMember, mintedSnapshot, Option.map_some]
    refine ⟨mintingMember_entity base poisoned r.micros tx, hdb, by rw [hminted, Option.getD_some], fun id hid => ?_⟩
    rw [hminted, Option.some.injEq] at hid
    exact hid.symm

namespace Batch

variable {b b' : Batch}

/-- A refold changes nothing but the premise, and leaves nothing to fold. -/
theorem refold_eq (h : b.refold = .ok b') :
    b'.db = b.db ∧ b'.writes = b.writes ∧ b'.folded = b'.writes.length ∧ b'.refold = .ok b' := by
  unfold refold at h
  split at h
  · next heq =>
    cases h
    exact ⟨rfl, rfl, heq, by rw [refold, if_pos heq]⟩
  · obtain ⟨premise, -, rfl⟩ := Results.map_eq_ok.mp h
    exact ⟨rfl, rfl, rfl, by rw [refold, if_pos rfl]⟩

/-- The count of members does not matter. -/
theorem refold_counted (b : Batch) (n : Nat) :
    Batch.refold { b with members := n } = b.refold.map fun b => { b with members := n } := by
  unfold refold
  split
  · rfl
  · change Except.map _ (b.view.foldBatch _) = Except.map _ (Except.map _ (b.view.foldBatch _))
    cases b.view.foldBatch (b.writes.drop b.folded) <;> rfl

/-- What is folded after a member is the member's batch. -/
theorem refold_add {commits : Nat} {m : Member} {db' : DbState} (hb : b.refold = .ok b)
    (h : (b.add (.writes commits m db')).1.refold = .ok b') :
    b.view.foldBatch (m.batch b.db.catalog) = .ok b'.view := by
  obtain ⟨-, -, hfolded, -⟩ := refold_eq hb
  rw [Batch.add, refold, if_neg (by simp [hfolded, m.batch_ne_nil])] at h
  obtain ⟨premise, hpremise, rfl⟩ := Results.map_eq_ok.mp h
  rw [hfolded, List.drop_left] at hpremise
  exact hpremise

/-- What a member does to the batch it joins, by the transaction its closure leaves. -/
inductive Joined (changes : List Operation → String × List Nat) (b : Batch) (micros : Int) (tx : Transaction)
    (b' : Batch) : Prop where
  | nothing (empty : tx.ops = []) (db : b'.db = b.db) (view : ∀ b₁, b'.refold = .ok b₁ → b₁.view = b.view)
  | options (empty : tx.ops = [])
      (catalog : b'.db.catalog = b.db.catalog.commit ⟨diffOptions b.view tx.state, none⟩)
      (inline : b'.db.inline = b.db.inline)
      (fold : ∀ b₁, b'.refold = .ok b₁ →
        b.view.foldBatch (Member.batch b.db.catalog ⟨diffOptions b.view tx.state, none⟩) = .ok b₁.view)
  | minted (entries : IndexEntries) (poisoned : List Nat) (inlineWrites : List (InlineStoreWrite ArrowRow))
      (nonempty : tx.ops ≠ []) (staged : b.db.entries.stageIndexEntries tx.indexEntries = .ok (entries, poisoned))
      (stagedInline : b.db.inline.stageInlineWrites tx.inlineOps = .ok inlineWrites)
      (catalog : b'.db.catalog = b.db.catalog.commit (mintingMember b.view poisoned changes micros tx))
      (inline : b'.db.inline = b.db.inline.applyAll inlineWrites)
      (fold : ∀ b₁, b'.refold = .ok b₁ →
        b.view.foldBatch ((mintingMember b.view poisoned changes micros tx).batch b.db.catalog) = .ok b₁.view)

/-- A member finds the batch refolded, and joins it. -/
theorem stageMember_joined {id : Nat} (h : b.stageMember changes r = .ok (b', id)) :
    ∃ b₁ tx, b.refold = .ok b₁ ∧ r.closure (.new b₁.view (b₁.view.snapshot.snapshotId + 1)) = .ok () tx ∧
      Joined changes b₁ r.micros tx b' := by
  obtain ⟨b₂, hb₂, h⟩ := Results.bind_eq_ok.mp h
  obtain ⟨staged, hstaged, hadd⟩ := Results.bind_eq_ok.mp h
  obtain ⟨-, -, -, hdone⟩ := refold_eq hb₂
  rw [refold_counted] at hb₂
  obtain ⟨b₁, hb₁, rfl⟩ := Results.map_eq_ok.mp hb₂
  have hbatch : (Batch.add _ staged).1 = b' := congrArg Prod.fst (Except.ok.inj hadd)
  obtain ⟨tx, hclosure, hcases⟩ := stageClosure_eq_ok hstaged
  refine ⟨b₁, tx, hb₁, hclosure, ?_⟩
  rcases hcases with ⟨hempty, rfl⟩ |
    ⟨hnonempty, entries, poisoned, inlineWrites, db', hentries, hwrites, hcatalog, hinline, rfl⟩
  · unfold stageOptions at hbatch
    dsimp only at hbatch
    split at hbatch
    · refine .nothing hempty (by rw [← hbatch]; rfl) fun b₃ hb₃ => ?_
      rw [← hbatch] at hb₃
      exact (congrArg Batch.view (Except.ok.inj (hdone.symm.trans hb₃))).symm
    · refine .options hempty (by rw [← hbatch]; rfl) (by rw [← hbatch]; rfl) fun b₃ hb₃ => ?_
      rw [← hbatch] at hb₃
      have hfold := refold_add hdone hb₃
      exact hfold
  · refine .minted entries poisoned inlineWrites hnonempty hentries hwrites (by rw [← hbatch]; exact hcatalog)
      (by rw [← hbatch]; exact hinline) fun b₃ hb₃ => ?_
    rw [← hbatch] at hb₃
    have hfold := refold_add hdone hb₃
    exact hfold

/-- A batch on a transaction that began at `s`: without writes the transaction sees `s` itself, no snapshot is
    lost, the head has its record, and the premise is stamped with the head. -/
structure Coherent (s : DbState) (b : Batch) : Prop where
  unwritten : b.writes = [] → b.db = s
  keeps : ∀ id : Nat, s.catalog.snapshots[id]?.isSome → b.db.catalog.snapshots[id]?.isSome
  recorded : b.db.catalog.snapshots[b.db.catalog.head.snapshotId]?.isSome
  stamped : ∀ b', b.refold = .ok b' → b'.view.viewHead = b.db.catalog.head

theorem coherent_opened {s : DbState} (hbase : base.viewHead = s.catalog.head)
    (hrecorded : s.catalog.snapshots[s.catalog.head.snapshotId]?.isSome) : (opened s base).Coherent s where
  unwritten _ := rfl
  keeps _ h := h
  recorded := hrecorded
  stamped b' h := by
    cases h
    exact hbase

namespace Coherent

variable {s : DbState}

theorem snapshotId (h : b.Coherent s) (hb : b.refold = .ok b) :
    b.view.snapshot.snapshotId = b.db.catalog.head.snapshotId :=
  congrArg HeadValue.snapshotId (h.stamped b hb)

/-- A refolded batch takes what a closure staged on its premise, and then has the id the member reports. -/
theorem add (h : b.Coherent s) (hb : b.refold = .ok b) {staged : Staged} (hstaged : staged.Follows b.db b.view) :
    (b.add staged).1.Coherent s ∧ (b.add staged).1.db.catalog.snapshots[(b.add staged).2]?.isSome ∧
      ∀ id : Nat, b.db.catalog.snapshots[id]?.isSome → (b.add staged).1.db.catalog.snapshots[id]?.isSome := by
  cases staged with
  | nothing head =>
    obtain rfl : head = b.view.snapshot.snapshotId := hstaged
    refine ⟨h, ?_, fun _ hid => hid⟩
    change b.db.catalog.snapshots[b.view.snapshot.snapshotId]?.isSome
    rw [h.snapshotId hb]
    exact h.recorded
  | writes commits m db' =>
    obtain ⟨hentity, hdb, hcommits, hnext⟩ := hstaged
    have hsnapshots := Store.commit_snapshots (s := b.db.catalog) hentity
    have hhead := Store.commit_head (s := b.db.catalog) (m := m)
    have hkeeps : ∀ id : Nat, b.db.catalog.snapshots[id]?.isSome → db'.catalog.snapshots[id]?.isSome := by
      intro id hid
      rw [hdb, hsnapshots]
      split
      · next hminted =>
        rw [Member.mintedId, Option.map_eq_some_iff] at hminted
        obtain ⟨value, hvalue, -⟩ := hminted
        rw [hvalue]
        rfl
      · exact hid
    have hreports : commits = (b.db.catalog.commit m).head.snapshotId := by
      rw [hcommits, h.snapshotId hb, hhead]
    have hrecorded : (b.db.catalog.commit m).snapshots[(b.db.catalog.commit m).head.snapshotId]?.isSome := by
      rw [hhead, hsnapshots]
      cases hminted : m.minted with
      | none =>
        have hnone : m.mintedId = none := by rw [Member.mintedId, hminted]; rfl
        rw [hnone, Option.getD_none, if_neg (by simp)]
        exact h.recorded
      | some value =>
        have hsome : m.mintedId = some value.snapshotId := by rw [Member.mintedId, hminted]; rfl
        rw [hsome, Option.getD_some, if_pos rfl]
        rfl
    refine ⟨⟨fun hnil => ?_, fun id hid => hkeeps id (h.keeps id hid), ?_, fun b₁ hb₁ => ?_⟩, ?_, hkeeps⟩
    · exact absurd (List.append_eq_nil_iff.mp hnil).2 (m.batch_ne_nil _)
    · change db'.catalog.snapshots[db'.catalog.head.snapshotId]?.isSome
      rw [hdb]
      exact hrecorded
    · have hfold := Member.viewHead_foldBatch hentity (h.stamped b hb) (refold_add hb hb₁)
      exact hfold.trans (congrArg Store.head hdb.symm)
    · change db'.catalog.snapshots[commits]?.isSome
      rw [hdb, hreports]
      exact hrecorded

theorem counted (h : b.Coherent s) (n : Nat) : Batch.Coherent s { b with members := n } where
  unwritten := h.unwritten
  keeps := h.keeps
  recorded := h.recorded
  stamped b' hb' := by
    rw [refold_counted] at hb'
    obtain ⟨b₁, hb₁, rfl⟩ := Results.map_eq_ok.mp hb'
    exact h.stamped b₁ hb₁

theorem refolded (h : b.Coherent s) (hb : b.refold = .ok b') : b'.Coherent s := by
  obtain ⟨hdb, hwrites, -, hdone⟩ := refold_eq hb
  refine ⟨fun hnil => ?_, fun id hid => ?_, ?_, fun b₁ hb₁ => ?_⟩
  · rw [hdb]
    exact h.unwritten (hwrites ▸ hnil)
  · rw [hdb]
    exact h.keeps id hid
  · rw [hdb]
    exact h.recorded
  · rw [hdone] at hb₁
    cases hb₁
    rw [hdb]
    exact h.stamped b' hb

/-- A staged member leaves the batch coherent, with every id it had and the one the member reports. -/
theorem stageMember (h : b.Coherent s) {id : Nat} (hstage : b.stageMember changes r = .ok (b', id)) :
    b'.Coherent s ∧ b'.db.catalog.snapshots[id]?.isSome ∧
      (∀ id : Nat, b.db.catalog.snapshots[id]?.isSome → b'.db.catalog.snapshots[id]?.isSome) ∧
      b.writes <+: b'.writes := by
  obtain ⟨b₁, hb₁, hstage⟩ := Results.bind_eq_ok.mp hstage
  obtain ⟨staged, hstaged, hadd⟩ := Results.bind_eq_ok.mp hstage
  obtain ⟨hdb, hwrites, -, hdone⟩ := refold_eq hb₁
  obtain ⟨hcoherent, hid, hkeeps⟩ := ((h.counted _).refolded hb₁).add hdone (stageClosure_follows hstaged)
  have hb' : b₁.add staged = (b', id) := Except.ok.inj hadd
  rw [hb'] at hcoherent hid hkeeps
  refine ⟨hcoherent, hid, fun id hid => hkeeps id ?_, ?_⟩
  · rw [hdb]
    exact hid
  · have hgrows : b₁.writes <+: (b₁.add staged).1.writes := by
      cases staged with
      | nothing head => exact List.prefix_rfl
      | writes commits m db => exact List.prefix_append _ _
    rw [hwrites, hb'] at hgrows
    exact hgrows

/-- So does a list of members, up to one that fails. -/
theorem stage (h : b.Coherent s) (rs : List Request) :
    (∀ e b', b.stage changes rs = .error (e, b') → b'.Coherent s) ∧
      ∀ b' ids, b.stage changes rs = .ok (b', ids) → b'.Coherent s ∧
        (∀ id ∈ ids, b'.db.catalog.snapshots[id]?.isSome) ∧
        (∀ id : Nat, b.db.catalog.snapshots[id]?.isSome → b'.db.catalog.snapshots[id]?.isSome) ∧
        b.writes <+: b'.writes := by
  induction rs generalizing b with
  | nil =>
    refine ⟨fun e b' hb' => (by cases hb'), fun b' ids hb' => ?_⟩
    cases hb'
    exact ⟨h, fun id hid => (by cases hid), fun _ hid => hid, List.prefix_rfl⟩
  | cons r rs ih =>
    rw [Batch.stage]
    cases hmember : b.stageMember changes r with
    | error e =>
      refine ⟨fun e' b' hb' => ?_, fun b' ids hb' => (by cases hb')⟩
      cases hb'
      exact h
    | ok x =>
      obtain ⟨b₁, id⟩ := x
      obtain ⟨hcoherent, hid, hkeeps, hgrows⟩ := h.stageMember hmember
      obtain ⟨herror, hok⟩ := ih hcoherent
      refine ⟨fun e b' hb' => herror e b' ?_, fun b' ids hb' => ?_⟩
      · simp only at hb'
        cases hrest : b₁.stage changes rs with
        | error x => rw [hrest] at hb'; cases hb'; rfl
        | ok x => rw [hrest] at hb'; cases hb'
      · obtain ⟨⟨b₂, ids'⟩, hrest, heq⟩ := Results.map_eq_ok.mp hb'
        obtain ⟨rfl, rfl⟩ := Prod.mk.inj heq
        obtain ⟨hcoherent', hids, hkeeps', hgrows'⟩ := hok _ ids' hrest
        refine ⟨hcoherent', fun id' hid' => ?_, fun id' hid' => hkeeps' id' (hkeeps id' hid'), hgrows.trans hgrows'⟩
        rcases List.mem_cons.mp hid' with rfl | hid'
        · exact hkeeps' _ hid
        · exact hids id' hid'

end Coherent

end Batch

end Staging

end Moraine
