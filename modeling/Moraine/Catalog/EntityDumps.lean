-- SUMMARY: The entity dumps of a read-only handle that follows the writer's commits.
import Moraine.Base.Following
import Moraine.Base.Results
import Moraine.Catalog.Projection
import Moraine.Transaction.Commit

/-!
# Entity dumps

A dump returns the records of the `current` and of the `history` subspace. It reads the head, takes the halves
that are held at that head, and scans the missing ones under one consistent cut. It then holds what it scanned,
stamped with the head it read first. A read-only handle moves on between these reads.

`entity_dumps_exact` says in which runs every dump returns the records of one committed state and every held half
is the scan of the state its stamp names.
-/

namespace Moraine

open Std (ExtTreeMap ExtTreeSet TransOrd LawfulEqOrd)
open OrdMap Following

/-! ## Scans -/

/-- Whether ended versions of the kind are kept. -/
def EntityKey.isVersioned : EntityKey → Bool
  | .fileColumnStats .. | .tableStats .. | .tableColumnStats .. | .option .. | .tag .. | .mapping .. => false
  | _ => true

/-- An unversioned key as an error message shows it. -/
def EntityKey.debug : EntityKey → String
  | .fileColumnStats t f c =>
    s!"FileColumnStats \x7b table_id: {t}, data_file_id: {f}, column_id: {c} \x7d"
  | .tableStats t => s!"TableStats \x7b table_id: {t} \x7d"
  | .tableColumnStats t c => s!"TableColumnStats \x7b table_id: {t}, column_id: {c} \x7d"
  | .option k i => s!"Option \x7b scope_kind: {k}, scope_id: {i} \x7d"
  | .tag o => s!"Tag \x7b object_id: {o} \x7d"
  | .mapping t m => s!"Mapping \x7b table_id: {t}, mapping_id: {m} \x7d"
  | _ => ""

namespace Store

/-- The ended versions. A kind that keeps none is store damage. -/
def scanHistoryEntities (s : Store) : Except Error (List EntityRecord) :=
  Results.each (fun x : HistoryKey × EntityRecord =>
    if x.1.entity.isVersioned then .ok x.2
    else .error (.corruption s!"unversioned key in history scan: {x.1.entity.debug}")) s.history.toList

end Store

/-! ## Dumps -/

/-- How many times a read-only pass is run. -/
def STABLE_READ_ATTEMPTS : Nat := 8

def movedEveryAttempt : Error :=
  .retryBudgetExhausted
    (s!"a read-only pass could not observe a single store state in {STABLE_READ_ATTEMPTS} attempts; " ++
      "the catalog is committing faster than it reads")

/-- The halves a dump works on, and the head it read. -/
structure EntityHalves where
  head : HeadValue
  current : List EntityRecord
  history : List EntityRecord
  deriving DecidableEq

abbrev DumpProg (α : Type) := Prog Store ProjectionCache Error α

/-- The `current` half: the held one, or a scan. -/
def currentHalf (held : Option (List EntityRecord)) : DumpProg (List EntityRecord) :=
  match held with
  | some records => pure records
  | none => .get Store.scanCurrentEntities

/-- The `history` half: the held one, a scan, or nothing if it is not wanted. -/
def historyHalf (wantHistory : Bool) (held : Option (List EntityRecord)) : DumpProg (List EntityRecord) :=
  match held, wantHistory with
  | some records, _ => pure records
  | none, true => .getE Store.scanHistoryEntities
  | none, false => pure []

/-- One pass over the halves that are not held. -/
def scanMissing (wantHistory : Bool) (heldCurrent heldHistory : Option (List EntityRecord)) :
    DumpProg (List EntityRecord × List EntityRecord) := do
  let current ← currentHalf heldCurrent
  let history ← historyHalf wantHistory heldHistory
  return (current, history)

namespace ProjectionCache

/-- Holds the halves that were scanned. -/
def installHalves (wantHistory : Bool) (heldCurrent heldHistory : Option (List EntityRecord)) (head : HeadValue)
    (current history : List EntityRecord) (c : ProjectionCache) : ProjectionCache :=
  { c with
    currentEntities := if heldCurrent.isNone then some (head, current) else c.currentEntities
    historyEntities := if wantHistory && heldHistory.isNone then some (head, history) else c.historyEntities }

end ProjectionCache

/-- The two halves at the session's head. A read-only handle holds no writer's view, so the head is read. -/
def entityHalves (wantHistory : Bool) : DumpProg EntityHalves := do
  .getE Store.refuseMidMigration
  let head ← .get Store.head
  let held ← .look fun c => (c.currentEntitiesAt head, c.historyEntitiesAt head)
  if held.1.isSome && (!wantHistory || held.2.isSome) then
    return ⟨head, held.1.getD [], held.2.getD []⟩
  else
    let scanned ← .consistent Store.head movedEveryAttempt (scanMissing wantHistory held.1 held.2)
      STABLE_READ_ATTEMPTS
    .update (ProjectionCache.installHalves wantHistory held.1 held.2 head scanned.1 scanned.2)
    return ⟨head, scanned.1, scanned.2⟩

/-- A read-only handle with its dumps in flight; a query says whether the dump wants the history. -/
abbrev DumpReader := Reader Store ProjectionCache Error Bool EntityHalves

/-- The committed states in order: each is its predecessor with the members of one batch applied. -/
def Committed (H : List Store) : Prop := H.IsChain fun s t => ∃ ms, ms ≠ [] ∧ Run s ms t

/-- Every held half is the scan of the committed state its stamp names. -/
structure HalvesExact (H : List Store) (c : ProjectionCache) : Prop where
  current : ∀ head records, c.currentEntities = some (head, records) →
    ∃ s ∈ H, s.head = head ∧ s.scanCurrentEntities = records
  history : ∀ head records, c.historyEntities = some (head, records) →
    ∃ s ∈ H, s.head = head ∧ s.scanHistoryEntities = .ok records

/-- The halves are those of the state. -/
def EntityHalves.AreOf (halves : EntityHalves) (wantHistory : Bool) (s : Store) : Prop :=
  halves.current = s.scanCurrentEntities ∧ (wantHistory → s.scanHistoryEntities = .ok halves.history)

/-- Every dump returned the records of one committed state, and the held halves are exact. -/
def DumpsExact (H : List Store) (r : DumpReader) : Prop :=
  (∀ wantHistory halves, (wantHistory, .ok halves) ∈ r.answers → ∃ s ∈ H, halves.AreOf wantHistory s) ∧
    HalvesExact H r.held

/-! ## Heads -/

namespace Committed

variable {H : List Store} (h : Committed H)
include h

/-- A later state is reached by a member for each state in between, or more. -/
theorem run {m n : Nat} {s t : Store} (hs : H[m]? = some s) (ht : H[n]? = some t) (hle : m ≤ n) :
    ∃ ms, n ≤ m + ms.length ∧ Run s ms t := by
  induction n, hle using Nat.le_induction generalizing t with
  | base =>
    rw [hs, Option.some.injEq] at ht
    subst ht
    exact ⟨[], le_rfl, .refl⟩
  | succ n hle ih =>
    obtain ⟨hlt, rfl⟩ := List.getElem?_eq_some_iff.mp ht
    obtain ⟨ms, hlen, hrun⟩ := ih (List.getElem?_eq_getElem (Nat.lt_of_succ_lt hlt))
    obtain ⟨batch, hbatch, hstep⟩ := List.isChain_iff_getElem.mp h n hlt
    refine ⟨ms ++ batch, ?_, hrun.trans hstep⟩
    have := List.length_pos_iff.mpr hbatch
    rw [List.length_append]
    omega

/-- A head names one position: the batch count grows with it. -/
theorem eq_of_head (m n : Nat) (s t : Store) (hs : H[m]? = some s) (ht : H[n]? = some t) (heq : s.head = t.head) :
    m = n := by
  rcases le_total m n with hle | hle
  · obtain ⟨ms, hlen, hrun⟩ := h.run hs ht hle
    have := hrun.batchSeq
    rw [heq] at this
    omega
  · obtain ⟨ms, hlen, hrun⟩ := h.run ht hs hle
    have := hrun.batchSeq
    rw [heq] at this
    omega

theorem eq_of_mem_of_head {s t : Store} (hs : s ∈ H) (ht : t ∈ H) (heq : s.head = t.head) : s = t := by
  obtain ⟨m, hm, rfl⟩ := List.getElem_of_mem hs
  obtain ⟨n, hn, rfl⟩ := List.getElem_of_mem ht
  obtain rfl := h.eq_of_head m n _ _ (List.getElem?_eq_getElem hm) (List.getElem?_eq_getElem hn) heq
  rfl

end Committed

/-! ## What a dump returns -/

section Dumps

variable {H : List Store} {wantHistory : Bool} {heldCurrent heldHistory : Option (List EntityRecord)}

theorem HalvesExact.currentEntitiesAt (h : Committed H) {c : ProjectionCache} (hc : HalvesExact H c) {s : Store}
    (hs : s ∈ H) {records : List EntityRecord} (hget : c.currentEntitiesAt s.head = some records) :
    s.scanCurrentEntities = records := by
  obtain ⟨⟨head, rows⟩, hheld, rfl⟩ := Option.map_eq_some_iff.mp hget
  obtain ⟨hheld, hhead⟩ := Option.filter_eq_some_iff.mp hheld
  obtain ⟨t, ht, hthead, hrows⟩ := hc.current head rows hheld
  obtain rfl := h.eq_of_mem_of_head hs ht (by rw [hthead]; simpa [eq_comm] using hhead)
  exact hrows

theorem HalvesExact.historyEntitiesAt (h : Committed H) {c : ProjectionCache} (hc : HalvesExact H c) {s : Store}
    (hs : s ∈ H) {records : List EntityRecord} (hget : c.historyEntitiesAt s.head = some records) :
    s.scanHistoryEntities = .ok records := by
  obtain ⟨⟨head, rows⟩, hheld, rfl⟩ := Option.map_eq_some_iff.mp hget
  obtain ⟨hheld, hhead⟩ := Option.filter_eq_some_iff.mp hheld
  obtain ⟨t, ht, hthead, hrows⟩ := hc.history head rows hheld
  obtain rfl := h.eq_of_mem_of_head hs ht (by rw [hthead]; simpa [eq_comm] using hhead)
  exact hrows

theorem HalvesExact.installHalves {c : ProjectionCache} (hc : HalvesExact H c) {s : Store} (hs : s ∈ H)
    {current history : List EntityRecord} (hcurrent : heldCurrent = none → s.scanCurrentEntities = current)
    (hhistory : wantHistory → heldHistory = none → s.scanHistoryEntities = .ok history) :
    HalvesExact H (c.installHalves wantHistory heldCurrent heldHistory s.head current history) where
  current head records hheld := by
    simp only [ProjectionCache.installHalves] at hheld
    split at hheld
    · next hnone =>
      cases hheld
      exact ⟨s, hs, rfl, hcurrent (Option.isNone_iff_eq_none.mp hnone)⟩
    · exact hc.current head records hheld
  history head records hheld := by
    simp only [ProjectionCache.installHalves] at hheld
    split at hheld
    · next hwant =>
      cases hheld
      rw [Bool.and_eq_true, Option.isNone_iff_eq_none] at hwant
      exact ⟨s, hs, rfl, hhistory hwant.1 hwant.2⟩
    · exact hc.history head records hheld

theorem readOnly_scanMissing : (scanMissing wantHistory heldCurrent heldHistory).ReadOnly := by
  refine .bind ?_ fun _ => .bind ?_ fun _ => Prog.readOnly_pure _
  · cases heldCurrent with
    | some records => exact Prog.readOnly_pure _
    | none => exact Prog.readOnly_get _
  · cases heldHistory with
    | some records => exact Prog.readOnly_pure _
    | none =>
      cases wantHistory with
      | true => exact Prog.readOnly_getE _
      | false => exact Prog.readOnly_pure _

/-- At one state a pass takes the held halves and scans the others there. -/
theorem alone_scanMissing {s : Store} {c : ProjectionCache} {halves : List EntityRecord × List EntityRecord}
    (hscan : ((scanMissing wantHistory heldCurrent heldHistory).alone s c).2 = .ok halves) :
    halves.1 = heldCurrent.getD s.scanCurrentEntities ∧
      (∀ records, heldHistory = some records → halves.2 = records) ∧
      (heldHistory = none → wantHistory → s.scanHistoryEntities = .ok halves.2) := by
  have hcurrent : (currentHalf heldCurrent).alone s c = (c, .ok (heldCurrent.getD s.scanCurrentEntities)) := by
    cases heldCurrent <;> rfl
  rw [scanMissing, Prog.alone_bind, hcurrent] at hscan
  simp only [Prog.alone_bind] at hscan
  cases heldHistory with
  | some records =>
    cases hscan
    exact ⟨rfl, fun records' h => Option.some.inj h, nofun⟩
  | none =>
    cases wantHistory with
    | false =>
      cases hscan
      exact ⟨rfl, nofun, nofun⟩
    | true =>
      simp only [historyHalf, Prog.alone_getE] at hscan
      cases hrecords : s.scanHistoryEntities with
      | error e =>
        rw [hrecords] at hscan
        cases hscan
      | ok records =>
        rw [hrecords] at hscan
        cases hscan
        exact ⟨rfl, nofun, fun _ _ => rfl⟩

/-- A dump that stays at one state returns its records and holds them. -/
theorem meets_entityHalves (h : Committed H) (wantHistory : Bool) :
    Meets H (fun _ c => HalvesExact H c) true (fun _ halves => ∃ s ∈ H, halves.AreOf wantHistory s) none
      (entityHalves wantHistory) := by
  unfold entityHalves
  refine Meets.getE_bind fun _ _ _ _ _ _ => Meets.get_bind fun n s hs _ => ?_
  have hmem := List.mem_of_getElem? hs
  refine Meets.look_bind fun _ c _ hc => ?_
  have hcurrent : ∀ records, c.currentEntitiesAt s.head = some records → s.scanCurrentEntities = records :=
    fun _ => hc.currentEntitiesAt h hmem
  have hhistory : ∀ records, c.historyEntitiesAt s.head = some records → s.scanHistoryEntities = .ok records :=
    fun _ => hc.historyEntitiesAt h hmem
  simp only
  generalize c.currentEntitiesAt s.head = heldCurrent at hcurrent ⊢
  generalize c.historyEntitiesAt s.head = heldHistory at hhistory ⊢
  have hheld : heldCurrent.getD s.scanCurrentEntities = s.scanCurrentEntities := by
    cases heldCurrent with
    | none => rfl
    | some records => exact (hcurrent records rfl).symm
  split
  · next hsettled =>
    rw [Bool.and_eq_true, Bool.or_eq_true, Bool.not_eq_true'] at hsettled
    obtain ⟨records, rfl⟩ := Option.isSome_iff_exists.mp hsettled.1
    refine ⟨s, hmem, hheld, fun hwant => ?_⟩
    obtain ⟨records', rfl⟩ := Option.isSome_iff_exists.mp (hsettled.2.resolve_left (by simp [hwant]))
    exact hhistory records' rfl
  · refine Meets.bind
      ((Meets.consistent_readOnly h.eq_of_head readOnly_scanMissing STABLE_READ_ATTEMPTS).of_moving true).stays
      fun pos scanned hpost => ?_
    obtain ⟨hpos, n', s', hpos', hs', hscan⟩ := hpost
    obtain rfl : n' = n := Option.some.inj (hpos'.symm.trans hpos)
    obtain rfl : s' = s := Option.some.inj (hs'.symm.trans hs)
    obtain ⟨hscanned, hheldHistory, hscannedHistory⟩ := alone_scanMissing (hscan {})
    rw [hheld] at hscanned
    have hwanted : wantHistory → s'.scanHistoryEntities = .ok scanned.2 := by
      intro hwant
      cases heldHistory with
      | none => exact hscannedHistory rfl hwant
      | some records =>
        rw [hheldHistory records rfl]
        exact hhistory records rfl
    refine Meets.update_bind (fun _ c _ hc => ?_) ⟨s', hmem, hscanned, hwanted⟩
    exact hc.installHalves hmem (fun _ => hscanned.symm) fun hwant _ => hwanted hwant

end Dumps

/-- In a run in which the handle does not move on from a dump's first read, that of the migration marker, to the end
    of its scans, every dump returns the records of one committed state and every held half is exact. -/
theorem entity_dumps_exact (H : List Store) (h : Committed H) (events : List (Event Bool))
    (hstill : Runs.Throughout (Reader.step H entityHalves) (Reader.KeepsStill fun _ => true) { held := {} } events) :
    Runs.Always (Reader.step H entityHalves) (DumpsExact H) { held := {} } events := by
  refine Runs.Always.mono (fun hsound => ⟨hsound.answers, hsound.held⟩)
    (Reader.always_sound (fun _ _ _ _ hc => hc) (meets_entityHalves h) ?_ hstill)
  exact ⟨fun _ _ hheld => (by cases hheld), fun _ _ hheld => (by cases hheld)⟩

/-! ## A table dropped between the two halves -/

namespace TornDump

def table (endSnapshot : Option Nat) : EntityRecord :=
  .table
    { tableId := 1, tableUuid := "", beginSnapshot := 1, endSnapshot := endSnapshot, schemaId := 0
      tableName := "a", path := "a", pathIsRelative := true, nextColumnId := 2 }

def present : Store :=
  { head := ⟨1, 1⟩, current := (∅ : ExtTreeMap CurrentKey EntityRecord).insert (.entity (.table 1)) (table none) }

/-- The commit that drops the table. -/
def drop : Member :=
  { writes := [.current (.entity (.table 1)) none, .history ⟨.table 1, 2⟩ (some (table (some 2)))]
    minted := some { (default : SnapshotValue) with snapshotId := 2 } }

def history : List Store := [present, present.commit drop]

theorem committed_history : Committed history := by
  refine List.isChain_pair.mpr ⟨[drop], by simp, .step .refl ⟨fun k r hr => ?_, by decide +kernel, by decide +kernel⟩⟩
  simp [drop, CatalogSnapshot.currentWrites] at hr

/-- The oldest dump in flight takes `k` steps. -/
def steps (k : Nat) : List (Event Bool) := List.replicate k (.step 0)

/-- A first dump wants the `current` half only. A second one reads the head and takes that half; the handle
    then sees the drop before it scans the other one. -/
def events : List (Event Bool) :=
  List.flatten [[.start false], steps 8, [.start true], steps 3, [.poll 1], steps 5]

/-- The handle sees the drop between the two dumps. -/
def prompt : List (Event Bool) := List.flatten [[.start false], steps 8, [.poll 1, .start true], steps 9]

theorem prompt_still :
    Runs.Throughout (Reader.step history entityHalves) (Reader.KeepsStill fun _ => true) { held := {} } prompt :=
  Reader.throughout_keepsStill _ (by decide +kernel)

/-- `entity_dumps_exact` at two dumps around the drop. -/
theorem entity_dumps_exact_prompt :
    Runs.Always (Reader.step history entityHalves) (DumpsExact history) { held := {} } prompt :=
  entity_dumps_exact history committed_history prompt prompt_still

/-- The second dump returns the table from both halves: live from the one it took, ended from the one it
    scanned. -/
theorem dump_returns_dropped_table_twice :
    ¬ Runs.Always (Reader.step history entityHalves) (DumpsExact history) { held := {} } events := by
  intro h
  have hfacts : (Runs.run (Reader.step history entityHalves) { held := {} } events).map (·.answers) =
      some [(false, .ok ⟨⟨1, 1⟩, [table none], []⟩), (true, .ok ⟨⟨1, 1⟩, [table none], [table (some 2)]⟩)] := by
    decide +kernel
  have hnone : ∀ s ∈ history, ¬ (s.scanCurrentEntities = [table none] ∧
      s.scanHistoryEntities = .ok [table (some 2)]) := by decide +kernel
  obtain ⟨r, hrun, hanswers⟩ := Option.map_eq_some_iff.mp hfacts
  obtain ⟨s, hs, hcurrent, hhistory⟩ := (h.run hrun).1 true ⟨⟨1, 1⟩, [table none], [table (some 2)]⟩
    (by rw [hanswers]; exact List.mem_cons_of_mem _ List.mem_cons_self)
  exact hnone s hs ⟨hcurrent.symm, hhistory rfl⟩

end TornDump

end Moraine
