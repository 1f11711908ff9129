-- SUMMARY: The sweep of orphaned index entries: what it spares and what it deletes, with commits landing meanwhile.
import Moraine.Base.Runs
import Moraine.Store.KeyEncoding
import Moraine.Transaction.Batch

/-!
# The sweep of orphaned index entries

A maintenance pass reads once which indexes are live. It then seeks from index to index through the entries of each
kind. It skips an index that was live and deletes the entries of any other one, a batch in each store transaction.
Commits may land between two seeks or batches.
-/

namespace Moraine

open Std (ExtTreeMap ExtTreeSet)
open OrdMap

/-- The index, the value and the row of an entry. -/
abbrev StoredEntry := Nat × CanonicalKey × Nat

namespace IndexEntries

/-- The entries of a kind in the order of the store. -/
def scan (s : IndexEntries) : IndexKind → List StoredEntry
  | .unique => s.unique.toList.map fun x => (x.1.1, x.1.2, x.2)
  | .multi => s.multi.toList

def deleteAll (s : IndexEntries) (kind : IndexKind) (batch : List StoredEntry) : IndexEntries :=
  match kind with
  | .unique => { s with unique := s.unique.filter fun key row => (key.1, key.2, row) ∉ batch }
  | .multi => { s with multi := s.multi.filter (· ∉ batch) }

/-- What an entry's place in the store is decided by: a unique entry's key has no row. -/
def place : IndexKind → StoredEntry → StoredEntry
  | .unique, e => (e.1, e.2.1, 0)
  | .multi, e => e

theorem place_fst (kind : IndexKind) (e : StoredEntry) : (place kind e).1 = e.1 := by cases kind <;> rfl

/-- Whether an entry is of the index and at `startFrom` or behind it. -/
def ahead (kind : IndexKind) (indexId : Nat) (startFrom : Option StoredEntry) (e : StoredEntry) : Bool :=
  e.1 = indexId && startFrom.all fun c => (compare (place kind c) (place kind e)).isLE

/-- Up to `limit` entries of one index, from `startFrom` on. -/
def reclaimEntriesFrom (s : IndexEntries) (kind : IndexKind) (indexId limit : Nat) (startFrom : Option StoredEntry) :
    List StoredEntry :=
  ((s.scan kind).filter (ahead kind indexId startFrom)).take limit

/-- The lowest index at or after `start` that has an entry. -/
def firstIndexIdFrom (s : IndexEntries) (kind : IndexKind) (start : Nat) : Option Nat :=
  ((s.scan kind).find? fun e => start ≤ e.1).map Prod.fst

variable (s : IndexEntries) (kind : IndexKind)

theorem scan_deleteAll (batch : List StoredEntry) :
    (s.deleteAll kind batch).scan = Function.update s.scan kind ((s.scan kind).filter (· ∉ batch)) := by
  funext kind'
  cases kind <;> cases kind' <;>
    simp [scan, deleteAll, ExtTreeMap.toList_filter, ExtTreeSet.toList_filter, List.filter_map, Function.comp_def]

theorem ordered_scan : (s.scan kind).Pairwise fun a b => compare (place kind a) (place kind b) = .lt := by
  cases kind with
  | unique =>
    refine List.pairwise_map.mpr (ExtTreeMap.ordered_keys_toList.imp fun {a b} h => ?_)
    simp only [place]
    rw [compare_pair_eq_lt] at h ⊢
    exact h.imp_right fun h => ⟨h.1, compare_pair_eq_lt.mpr (.inl h.2)⟩
  | multi =>
    have hordered : s.multi.toList.Pairwise fun a b => compare a b = .lt := ExtTreeSet.ordered_toList
    exact hordered

/-- The index found has an entry, and no index before it from `start` on has one. -/
theorem firstIndexIdFrom_spec {start indexId : Nat} (h : s.firstIndexIdFrom kind start = some indexId) :
    (∃ e ∈ s.scan kind, e.1 = indexId) ∧ start ≤ indexId ∧ ∀ e ∈ s.scan kind, start ≤ e.1 → indexId ≤ e.1 := by
  obtain ⟨first, hfind, rfl⟩ := Option.map_eq_some_iff.mp h
  obtain ⟨hstart, before, later, hsplit, hbefore⟩ := List.find?_eq_some_iff_append.mp hfind
  refine ⟨⟨first, by simp [hsplit], rfl⟩, by simpa using hstart, fun e he hle => ?_⟩
  have hordered := s.ordered_scan kind
  rw [hsplit] at he hordered
  rcases List.mem_append.mp he with he | he
  · exact absurd hle (by simpa using hbefore e he)
  · rcases List.mem_cons.mp he with rfl | he
    · exact le_rfl
    · have hlt := List.rel_of_pairwise_cons (List.pairwise_append.mp hordered).2.1 he
      rw [compare_pair_eq_lt, place_fst, place_fst] at hlt
      rcases hlt with h | h
      · exact (Nat.compare_eq_lt.mp h).le
      · exact (Nat.compare_eq_eq.mp h.1).le

/-- What a batch leaves is ahead of the new cursor exactly if it was ahead of the old one. -/
theorem ahead_batch {indexId limit : Nat} {cursor : Option StoredEntry} {left : List StoredEntry}
    (hleft : (s.scan kind).filter (ahead kind indexId cursor) = left) (hnil : left.take limit ≠ []) {e : StoredEntry}
    (he : e ∈ s.scan kind) (hkept : e ∉ left.take limit) :
    ahead kind indexId (left.take limit).getLast? e = ahead kind indexId cursor e := by
  obtain ⟨last, hlast⟩ := Option.isSome_iff_exists.mp (List.getLast?_isSome.mpr hnil)
  have hin := List.mem_of_mem_take (List.mem_of_getLast? hlast)
  have hordered : left.Pairwise fun a b => compare (place kind a) (place kind b) = .lt :=
    hleft ▸ (s.ordered_scan kind).filter _
  rw [hlast]
  by_cases hold : ahead kind indexId cursor e = true
  · -- Behind the batch the order puts every entry after its last one.
    have hdrop : e ∈ left := hleft ▸ List.mem_filter.mpr ⟨he, hold⟩
    rw [← List.take_append_drop limit left] at hordered hdrop
    have hlt := (List.pairwise_append.mp hordered).2.2 last (List.mem_of_getLast? hlast) e
      ((List.mem_append.mp hdrop).resolve_left hkept)
    simp only [ahead, Bool.and_eq_true] at hold
    simp [ahead, hold, hlt]
  · rw [Bool.not_eq_true] at hold
    rw [hold]
    by_cases hindex : e.1 = indexId
    · -- The old cursor is not behind the new one.
      simp only [ahead, hindex, decide_true, Bool.true_and, Option.all_eq_false] at hold ⊢
      obtain ⟨c, hc, hbefore⟩ := hold
      have hle := (List.mem_filter.mp (hleft ▸ hin)).2
      simp only [ahead, Bool.and_eq_true, Option.all_eq_true] at hle
      refine ⟨last, rfl, ?_⟩
      by_contra hnot
      rw [Bool.not_eq_false] at hnot
      rw [Std.TransCmp.isLE_trans (hle.2 c hc) hnot] at hbefore
      cases hbefore
    · simp [ahead, hindex]

end IndexEntries

structure MaintenanceRequest where
  sweepOrphanedIndexEntries : Bool := true
  batchSize : Nat := 1024

structure MaintenanceReport where
  indexesSwept : Nat := 0
  indexEntriesReclaimed : Nat := 0

/-- A dead index that is being reclaimed: the last entry deleted, and how many were. -/
structure DeadRange where
  indexId : Nat
  cursor : Option StoredEntry := none
  total : Nat := 0

structure Sweep where
  db : DbState
  /-- The indexes that were live when the pass began. -/
  live : List Nat
  batchSize : Nat
  kinds : List IndexKind
  start : Nat := 0
  range : Option DeadRange := none
  report : MaintenanceReport := {}

def CatalogSnapshot.liveIndexes (v : CatalogSnapshot) : List Nat :=
  v.indexes.values.flatMap fun perTable => perTable.keys

inductive SweepEvent where
  | pass
  /-- A commit leaves the store as it is given. -/
  | commit (db : DbState)

namespace Sweep

/-- A pass that has read the live indexes off the view. -/
def maintain (db : DbState) (view : CatalogSnapshot) (request : MaintenanceRequest) : Except Error Sweep :=
  if request.batchSize = 0 then
    .error (.configuration "batch_size must be nonzero; zero would reclaim nothing and never terminate")
  else
    .ok { db, live := view.liveIndexes, batchSize := request.batchSize
          kinds := if request.sweepOrphanedIndexEntries then [.unique, .multi] else [] }

/-- One batch of a dead index is deleted. With none left the pass goes on behind the index. -/
def reclaimDeadRange (s : Sweep) (kind : IndexKind) (range : DeadRange) : Sweep :=
  let batch := s.db.entries.reclaimEntriesFrom kind range.indexId s.batchSize range.cursor
  if batch = [] then
    { s with
      start := range.indexId + 1
      range := none
      report := if 0 < range.total then
        ⟨s.report.indexesSwept + 1, s.report.indexEntriesReclaimed + range.total⟩ else s.report }
  else
    { s with
      db := { s.db with entries := s.db.entries.deleteAll kind batch }
      range := some { range with cursor := batch.getLast?, total := range.total + batch.length } }

/-- One seek or one batch; nothing after the last kind. -/
def pass (s : Sweep) : Option Sweep :=
  match s.kinds, s.range with
  | [], _ => none
  | kind :: _, some range => some (s.reclaimDeadRange kind range)
  | kind :: rest, none =>
    match s.db.entries.firstIndexIdFrom kind s.start with
    | none => some { s with kinds := rest, start := 0 }
    | some indexId =>
      if indexId ∈ s.live then some { s with start := indexId + 1 } else some { s with range := some { indexId } }

def step (s : Sweep) : SweepEvent → Option Sweep
  | .pass => s.pass
  | .commit db => some { s with db }

/-! ## What the pass spares -/

/-- One seek or batch leaves the store but for at most `size` entries of an index that was not live. -/
structure Spares (live : List Nat) (size : Nat) (s s' : Sweep) : Prop where
  others : s'.db = { s.db with entries := s'.db.entries }
  entries : ∃ kind, ∃ batch : List StoredEntry, batch.length ≤ size ∧
    (∀ e ∈ batch, e ∈ s.db.entries.scan kind ∧ e.1 ∉ live) ∧
    s'.db.entries.scan = Function.update s.db.entries.scan kind ((s.db.entries.scan kind).filter (· ∉ batch))

/-- What holds of a pass while it runs: an index that is being reclaimed was not live. -/
structure Aims (indexes : List Nat) (size : Nat) (s : Sweep) : Prop where
  live : s.live = indexes
  batchSize : s.batchSize = size
  kinds : s.kinds.Nodup
  range : ∀ range ∈ s.range, range.indexId ∉ indexes

variable {live : List Nat} {size : Nat} {s s' : Sweep} {kind : IndexKind} {rest : List IndexKind}

theorem spares_of_eq (h : s'.db = s.db) : Spares live size s s' :=
  ⟨by rw [h], .unique, [], Nat.zero_le _, nofun, by simp [h]⟩

theorem Aims.pass (h : Aims live size s) (hpass : s.pass = some s') : Aims live size s' ∧ Spares live size s s' := by
  obtain ⟨rfl, rfl, hkinds, hrange⟩ := h
  unfold Sweep.pass at hpass
  split at hpass
  · cases hpass
  next kind _ range _ heq =>
    have hdead := hrange range heq
    cases hpass
    unfold reclaimDeadRange
    dsimp only
    split
    · exact ⟨⟨rfl, rfl, hkinds, nofun⟩, spares_of_eq rfl⟩
    · refine ⟨⟨rfl, rfl, hkinds, fun r hr => by cases hr; exact hdead⟩, rfl, kind, _, List.length_take_le _ _,
        fun e he => ?_, s.db.entries.scan_deleteAll kind _⟩
      obtain ⟨hmem, hindex⟩ := List.mem_filter.mp (List.mem_of_mem_take he)
      simp only [IndexEntries.ahead, Bool.and_eq_true, decide_eq_true_eq] at hindex
      exact ⟨hmem, hindex.1 ▸ hdead⟩
  next hlist heq =>
    rw [hlist] at hkinds
    split at hpass
    · cases hpass
      exact ⟨⟨rfl, rfl, hkinds.of_cons, hrange⟩, spares_of_eq rfl⟩
    · split at hpass
      · cases hpass
        exact ⟨⟨rfl, rfl, hlist ▸ hkinds, hrange⟩, spares_of_eq rfl⟩
      next hdead =>
        cases hpass
        exact ⟨⟨rfl, rfl, hlist ▸ hkinds, fun r hr => by cases hr; exact hdead⟩, spares_of_eq rfl⟩

variable {db : DbState} {view : CatalogSnapshot} {request : MaintenanceRequest} {start : Sweep}

theorem eq_of_maintain (h : maintain db view request = .ok start) : request.batchSize ≠ 0 ∧
    start = { db, live := view.liveIndexes, batchSize := request.batchSize
              kinds := if request.sweepOrphanedIndexEntries then [.unique, .multi] else [] } := by
  unfold maintain at h
  split at h
  · cases h
  next hsize => exact ⟨hsize, (Except.ok.inj h).symm⟩

/-- Commits change neither what the pass knows nor where it stands. -/
theorem aims_of_run (hstart : maintain db view request = .ok start) {events : List SweepEvent}
    (hrun : Runs.run step start events = some s) : Aims view.liveIndexes request.batchSize s := by
  refine Runs.Always.run (Runs.always_of_throughout (q := fun _ _ => True) ?_ ?_
    (Runs.throughout_of_forall fun _ _ => trivial)) hrun
  · intro s event s' h _ hstep
    cases event with
    | pass => exact (h.pass hstep).1
    | commit db =>
      cases hstep
      exact ⟨h.live, h.batchSize, h.kinds, h.range⟩
  · obtain ⟨-, rfl⟩ := eq_of_maintain hstart
    exact ⟨rfl, rfl, by dsimp only; split <;> decide, nofun⟩

/-- Whatever commits land during a pass, it deletes no entry of an index that was live when it began, a batch is no
    larger than requested, and the rest of the store stays. -/
theorem sweep_spares_live (hstart : maintain db view request = .ok start) (events : List SweepEvent)
    (hrun : Runs.run step start events = some s) (hpass : s.pass = some s') :
    Spares view.liveIndexes request.batchSize s s' :=
  ((aims_of_run hstart hrun).pass hpass).2

/-- A view in which index 7 is live. -/
def viewOfSeven : CatalogSnapshot := { indexes := putNested ∅ 1 7 default }

/-- A store of unique entries. -/
def uniqueEntries (entries : List ((Nat × CanonicalKey) × Nat)) : DbState :=
  { catalog := {}, entries := { unique := .ofList entries } }

/-- What a commit leaves while the pass is at the first entry of index 5: entries of an index below it, of index 5
    before and behind that entry, of the live index, and of a new one. -/
def landed : DbState :=
  uniqueEntries [((3, [1]), 1), ((5, [0]), 2), ((5, [2]), 4), ((7, [2]), 3), ((9, [1]), 6)]

/-- A pass in batches of one that has read its view. -/
def bySeven : Except Error Sweep :=
  maintain (uniqueEntries [((5, [1]), 9), ((5, [2]), 8), ((7, [2]), 3)]) viewOfSeven { batchSize := 1 }

/-- A pass in batches of one has deleted the first of two entries of index 5 when a commit lands; its next batch spares
    index 7. -/
theorem seven_spared : ∃ start s s', bySeven = .ok start ∧
    Runs.run step start [.pass, .pass, .commit landed] = some s ∧ s.pass = some s' ∧
    s'.db.entries.scan .unique = [(3, [1], 1), (5, [0], 2), (7, [2], 3), (9, [1], 6)] ∧ Spares [7] 1 s s' :=
  ⟨_, _, _, rfl, rfl, rfl, by decide +kernel,
    sweep_spares_live (show bySeven = .ok _ from rfl) [.pass, .pass, .commit landed] rfl rfl⟩

/-! ## What the pass deletes -/

/-- The pass goes alone from one seek to another and keeps these entries of the kind. -/
structure Sweeps (s : Sweep) (kind : IndexKind) (kept : StoredEntry → Bool) (s' : Sweep) : Prop where
  reached : Relation.ReflTransGen (fun s s' => s.pass = some s') s s'
  live : s'.live = s.live
  batchSize : s'.batchSize = s.batchSize
  range : s'.range = none
  scan : s'.db.entries.scan = Function.update s.db.entries.scan kind ((s.db.entries.scan kind).filter kept)

theorem Sweeps.after {s₁ : Sweep} {kept kept₁ before : StoredEntry → Bool}
    (hreached : Relation.ReflTransGen (fun s s' => s.pass = some s') s s₁) (h : Sweeps s₁ kind kept₁ s')
    (hlive : s₁.live = s.live) (hsize : s₁.batchSize = s.batchSize) (hscan : s₁.db.entries.scan =
      Function.update s.db.entries.scan kind ((s.db.entries.scan kind).filter before))
    (hkept : ∀ e ∈ s.db.entries.scan kind, (kept₁ e && before e) = kept e) : Sweeps s kind kept s' := by
  refine ⟨hreached.trans h.reached, h.live.trans hlive, h.batchSize.trans hsize, h.range, ?_⟩
  rw [h.scan, hscan, Function.update_self, Function.update_idem, List.filter_filter, List.filter_congr hkept]

theorem Sweeps.congr {kept kept' : StoredEntry → Bool} (h : Sweeps s kind kept s')
    (hkept : ∀ e ∈ s.db.entries.scan kind, kept e = kept' e) : Sweeps s kind kept' s' :=
  ⟨h.reached, h.live, h.batchSize, h.range, by rw [h.scan, List.filter_congr hkept]⟩

open IndexEntries in
/-- Every batch resumes before what is left of the index, and leaves what is before the cursor. -/
theorem exists_reclaimed (hkinds : s.kinds = kind :: rest) (hsize : s.batchSize ≠ 0) {range : DeadRange}
    (hrange : s.range = some range) :
    ∃ s', Sweeps s kind (fun e => !ahead kind range.indexId range.cursor e) s' ∧ s'.kinds = s.kinds ∧
      s'.start = range.indexId + 1 := by
  induction hn : ((s.db.entries.scan kind).filter (ahead kind range.indexId range.cursor)).length
    using Nat.strong_induction_on generalizing s range with
  | h n ih =>
  subst hn
  have hpass : s.pass = some (s.reclaimDeadRange kind range) := by simp [Sweep.pass, hkinds, hrange]
  obtain ⟨left, hleft⟩ : ∃ left, (s.db.entries.scan kind).filter (ahead kind range.indexId range.cursor) = left :=
    ⟨_, rfl⟩
  have hmem : ∀ e, e ∈ left ↔ e ∈ s.db.entries.scan kind ∧ ahead kind range.indexId range.cursor e = true := by
    simp [← hleft]
  unfold reclaimDeadRange reclaimEntriesFrom at hpass
  rw [hleft] at hpass
  by_cases hnil : left.take s.batchSize = []
  · rw [if_pos hnil] at hpass
    refine ⟨_, ⟨.single hpass, rfl, rfl, rfl, ?_⟩, rfl, rfl⟩
    obtain rfl : left = [] := (List.take_eq_nil_iff.mp hnil).resolve_left hsize
    rw [List.filter_eq_self.mpr, Function.update_eq_self]
    intro e he
    simpa using fun hahead => List.not_mem_nil ((hmem e).mpr ⟨he, hahead⟩)
  · rw [if_neg hnil] at hpass
    have hscan := s.db.entries.scan_deleteAll kind (left.take s.batchSize)
    have hahead : ∀ e ∈ s.db.entries.scan kind, e ∉ left.take s.batchSize →
        ahead kind range.indexId (left.take s.batchSize).getLast? e = ahead kind range.indexId range.cursor e :=
      fun e he hkept => s.db.entries.ahead_batch kind hleft hnil he hkept
    obtain ⟨s₁, hs₁, heq⟩ : ∃ s₁, s.pass = some s₁ ∧ s₁ = _ := ⟨_, hpass, rfl⟩
    have hless : ((s₁.db.entries.scan kind).filter
        (ahead kind range.indexId (left.take s.batchSize).getLast?)).length < left.length := by
      obtain ⟨e, he⟩ := List.exists_mem_of_ne_nil _ hnil
      have hsame : (s₁.db.entries.scan kind).filter (ahead kind range.indexId (left.take s.batchSize).getLast?) =
          left.filter (· ∉ left.take s.batchSize) := by
        rw [heq, hscan, Function.update_self, ← hleft, List.filter_filter, List.filter_filter]
        refine List.filter_congr fun e he => ?_
        by_cases hkept : e ∈ left.take s.batchSize
        · simp [hleft, hkept]
        · simp [hleft, hkept, hahead e he hkept]
      rw [hsame]
      exact List.length_filter_lt_length_iff_exists.mpr ⟨e, List.mem_of_mem_take he, by simpa using he⟩
    obtain ⟨s', hsweeps, hkinds', hstart⟩ := ih _ (hleft ▸ hless) (show s₁.kinds = kind :: rest by rw [heq, hkinds])
      (by rwa [heq]) (congrArg Sweep.range heq) rfl
    refine ⟨s', hsweeps.after (.single hs₁) (by rw [heq]) (by rw [heq]) (by rw [heq]; exact hscan)
      fun e he => ?_, by rw [hkinds', heq], hstart⟩
    by_cases hkept : e ∈ left.take s.batchSize
    · simp [hkept, ((hmem e).mp (List.mem_of_mem_take hkept)).2]
    · simp [hkept, hahead e he hkept]

/-- Every seek goes on behind the index it found. -/
theorem exists_swept (hkinds : s.kinds = kind :: rest) (hsize : s.batchSize ≠ 0) (hrange : s.range = none) :
    ∃ s', Sweeps s kind (fun e => e.1 < s.start || s.live.contains e.1) s' ∧ s'.kinds = rest ∧ s'.start = 0 := by
  induction hn : ((s.db.entries.scan kind).filter (s.start ≤ ·.1)).length
    using Nat.strong_induction_on generalizing s with
  | h n ih =>
  subst hn
  cases hfirst : s.db.entries.firstIndexIdFrom kind s.start with
  | none =>
    have hpass : s.pass = some { s with kinds := rest, start := 0 } := by simp [Sweep.pass, hkinds, hrange, hfirst]
    refine ⟨_, ⟨.single hpass, rfl, rfl, hrange, ?_⟩, rfl, rfl⟩
    rw [List.filter_eq_self.mpr, Function.update_eq_self]
    intro e he
    have hbelow := List.find?_eq_none.mp (Option.map_eq_none_iff.mp hfirst) e he
    simp_all
  | some indexId =>
    obtain ⟨⟨first, hmem, rfl⟩, hfound, hleast⟩ := IndexEntries.firstIndexIdFrom_spec _ _ hfirst
    obtain ⟨s₁, h₁, hkinds₁, hstart₁⟩ : ∃ s₁, Sweeps s kind (fun e => s.live.contains first.1 || e.1 ≠ first.1) s₁ ∧
        s₁.kinds = s.kinds ∧ s₁.start = first.1 + 1 := by
      by_cases hlive : first.1 ∈ s.live
      · exact ⟨{ s with start := first.1 + 1 },
          ⟨.single (by simp [Sweep.pass, hkinds, hrange, hfirst, hlive]), rfl, rfl, hrange, by simp [hlive]⟩, rfl, rfl⟩
      · have hpass : s.pass = some { s with range := some { indexId := first.1 } } := by
          simp [Sweep.pass, hkinds, hrange, hfirst, hlive]
        obtain ⟨s₁, h₁, hrest⟩ := exists_reclaimed
          (show Sweep.kinds { s with range := some { indexId := first.1 } } = _ from hkinds) hsize rfl
        refine ⟨s₁, ⟨.head hpass h₁.reached, h₁.live, h₁.batchSize, h₁.range, ?_⟩, hrest⟩
        simpa [hlive, IndexEntries.ahead] using h₁.scan
    have hless : ((s₁.db.entries.scan kind).filter (s₁.start ≤ ·.1)).length <
        ((s.db.entries.scan kind).filter (s.start ≤ ·.1)).length := by
      have hlater : (s₁.db.entries.scan kind).filter (s₁.start ≤ ·.1) =
          ((s.db.entries.scan kind).filter (s.start ≤ ·.1)).filter (first.1 + 1 ≤ ·.1) := by
        rw [h₁.scan, Function.update_self, hstart₁, List.filter_filter, List.filter_filter]
        exact List.filter_congr fun e _ => by grind
      rw [hlater]
      exact List.length_filter_lt_length_iff_exists.mpr
        ⟨first, List.mem_filter.mpr ⟨hmem, by simpa using hfound⟩, by simp⟩
    obtain ⟨s', h', hlast⟩ := ih _ hless (hkinds₁.trans hkinds) (h₁.batchSize ▸ hsize) h₁.range rfl
    refine ⟨s', h'.after h₁.reached h₁.live h₁.batchSize h₁.scan fun e he => ?_, hlast⟩
    have hle := hleast e he
    rw [hstart₁, h₁.live]
    grind

/-- Whether the pass has gone by the place of an entry: it is of a kind that is done, or before the next index to seek,
    or in the index that is being reclaimed before the cursor. -/
def passed (s : Sweep) (kind : IndexKind) (e : StoredEntry) : Bool :=
  match s.kinds with
  | [] => true
  | current :: rest =>
    if kind = current then
      match s.range with
      | none => e.1 < s.start
      | some range => e.1 ≤ range.indexId && !IndexEntries.ahead kind range.indexId range.cursor e
    else kind ∉ rest

/-- The rest of a kind, from wherever the pass stands in it. -/
theorem exists_swept_rest (h : Aims live size s) (hsize : size ≠ 0) (hkinds : s.kinds = kind :: rest) :
    ∃ s', Sweeps s kind (fun e => live.contains e.1 || s.passed kind e) s' ∧ s'.kinds = rest ∧ s'.start = 0 := by
  have hsize' : s.batchSize ≠ 0 := h.batchSize ▸ hsize
  cases hrange : s.range with
  | none =>
    obtain ⟨s', hsweeps, hlast⟩ := exists_swept hkinds hsize' hrange
    refine ⟨s', hsweeps.congr fun e _ => ?_, hlast⟩
    simp only [passed, hkinds, hrange, h.live, if_true]
    exact Bool.or_comm _ _
  | some range =>
    obtain ⟨s₁, h₁, hkinds₁, hstart₁⟩ := exists_reclaimed hkinds hsize' hrange
    obtain ⟨s', h', hlast⟩ := exists_swept (hkinds₁.trans hkinds) (h₁.batchSize ▸ hsize') h₁.range
    refine ⟨s', h'.after h₁.reached h₁.live h₁.batchSize h₁.scan fun e _ => ?_, hlast⟩
    have hdead := h.range range hrange
    simp only [passed, hkinds, hrange, h.live, h₁.live, hstart₁, if_true, IndexEntries.ahead]
    grind

/-- From every state of a run, with no commits any more the pass comes to an end, and exactly the entries are left
    whose index was live when it began or whose place it had gone by. Those that a commit has made since behind the
    place are deleted too, whatever their index. -/
theorem sweep_keeps_only_live (hstart : maintain db view request = .ok start) (events : List SweepEvent)
    (hrun : Runs.run step start events = some s) :
    ∃ s', Relation.ReflTransGen (fun s s' => s.pass = some s') s s' ∧ s'.pass = none ∧
      ∀ kind, s'.db.entries.scan kind =
        (s.db.entries.scan kind).filter fun e => view.liveIndexes.contains e.1 || s.passed kind e := by
  have haims := aims_of_run hstart hrun
  have hsize := (eq_of_maintain hstart).1
  -- by induction on the kinds that are not done
  clear hstart hrun
  induction hkinds : s.kinds generalizing s with
  | nil => exact ⟨s, .refl, by simp [Sweep.pass, hkinds], fun kind => by simp [passed, hkinds]⟩
  | cons kind rest ih =>
    obtain ⟨s₁, h₁, hkinds₁, hstart₁⟩ := exists_swept_rest haims hsize hkinds
    have hnodup := haims.kinds
    rw [hkinds] at hnodup
    obtain ⟨s', hreached, hdone, hscan⟩ := ih ⟨h₁.live.trans haims.live, h₁.batchSize.trans haims.batchSize,
      hkinds₁ ▸ hnodup.of_cons, by simp [h₁.range]⟩ hkinds₁
    refine ⟨s', h₁.reached.trans hreached, hdone, fun kind' => ?_⟩
    rw [hscan, h₁.scan]
    have hlater : ∀ e, s₁.passed kind' e = decide (kind' ∉ rest) := by
      intro e
      unfold passed
      rw [hkinds₁]
      cases rest with
      | nil => simp
      | cons next rest => by_cases hnext : kind' = next <;> simp [hnext, h₁.range, hstart₁]
    by_cases hkind : kind' = kind
    · subst hkind
      simp [hlater, (List.nodup_cons.mp hnodup).1]
    · rw [Function.update_of_ne hkind]
      refine List.filter_congr fun e _ => ?_
      rw [hlater]
      simp [passed, hkinds, hkind]

/-- The pass of `seven_spared` goes on alone: what is left are the entries of index 7 and those it had gone by. -/
theorem new_index_swept : ∃ start s s', bySeven = .ok start ∧
    Runs.run step start [.pass, .pass, .commit landed] = some s ∧
    Relation.ReflTransGen (fun s s' => s.pass = some s') s s' ∧ s'.pass = none ∧
      s'.db.entries.scan .unique = [(3, [1], 1), (5, [0], 2), (7, [2], 3)] := by
  obtain ⟨s', hreached, hdone, hscan⟩ :=
    sweep_keeps_only_live (show bySeven = .ok _ from rfl) [.pass, .pass, .commit landed] rfl
  exact ⟨_, _, s', rfl, rfl, hreached, hdone, (hscan .unique).trans (by decide +kernel)⟩

end Sweep

end Moraine
