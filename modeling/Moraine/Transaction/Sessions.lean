-- SUMMARY: Runs of verb calls, commits, landings and lost batches over one store, and what calls keep along them.
import Moraine.Base.Runs
import Moraine.Transaction.Evolution
import Moraine.Transaction.TimeTravel

/-!
# Sessions

A session is one open closure on a batch that is being formed over a landed store. The closure calls verbs, and goes
on whatever they return; it is committed onto the batch or given up, and the next closure begins on the view that
the batch has reached. The batch lands, or it is lost and a new one begins on what has landed: so a commit is
retried, and so other writers come in between.

What a session knows of the catalog is a `Reading`: the live records and the two id counters. A commit passes the
working records on, up to the poison of indexes and the kinds of records that the diff does not settle. A property
of readings that is blind to those holds along every run if every call keeps it.
-/

namespace Moraine

open OrdMap CatalogSnapshot Transaction

/-! ## Readings -/

/-- The live records and the id counters. -/
structure Reading where
  records : CurrentKey → Option EntityRecord
  nextCatalogId : Nat
  nextFileId : Nat

/-- What a closure knows. -/
def Transaction.reading (tx : Transaction) : Reading := ⟨tx.state.get, tx.nextCatalogId, tx.nextFileId⟩

/-- What a view shows. -/
def CatalogSnapshot.reading (v : CatalogSnapshot) : Reading :=
  ⟨v.get, v.snapshot.nextCatalogId, v.snapshot.nextFileId⟩

/-- The kinds of records that a commit settles in any case. Options are committed on their own, a mapping is never
    ended, and the statistics of a file that is gone are not written. -/
def CurrentKey.settled : CurrentKey → Bool
  | .entity (.option ..) | .entity (.mapping ..) | .entity (.fileColumnStats ..) => false
  | _ => true

/-- The second reading has the records of the first, up to poison, and its counters. Of the statistics of files it
    may have fewer. -/
structure Reading.Passes (a b : Reading) : Prop where
  records : ∃ poisoned, ∀ k : CurrentKey, k.settled → b.records k = (a.records k).map (poisonRecord poisoned k)
  fileStats : ∀ t f c, (b.records (.entity (.fileColumnStats t f c))).isSome →
    (a.records (.entity (.fileColumnStats t f c))).isSome
  catalogIds : b.nextCatalogId = a.nextCatalogId
  fileIds : b.nextFileId = a.nextFileId

/-- The property is blind to what a commit does not pass on. -/
def Blind (P : Reading → Prop) : Prop := ∀ a b, a.Passes b → P a → P b

theorem poisonRecord_nil (k : CurrentKey) (r : EntityRecord) : poisonRecord [] k r = r := by
  unfold poisonRecord
  split <;> simp

/-- Equal records are passed on without poison. -/
theorem Reading.passes_of_eq {a b : Reading}
    (hrecords : ∀ k : CurrentKey, (∀ x y, k ≠ .entity (.option x y)) → b.records k = a.records k)
    (hcatalog : b.nextCatalogId = a.nextCatalogId) (hfile : b.nextFileId = a.nextFileId) : a.Passes b where
  records := by
    refine ⟨[], fun k hk => ?_⟩
    rw [hrecords k (by rintro x y rfl; cases hk), funext (poisonRecord_nil k), Option.map_id']
  fileStats t f c h := by rwa [hrecords _ (fun _ _ heq => by cases heq)] at h
  catalogIds := hcatalog
  fileIds := hfile

/-- The second view has statistics of a file wherever the first does. -/
def CatalogSnapshot.KeepsFileStats (v w : CatalogSnapshot) : Prop :=
  ∀ t f c, (v.get (.entity (.fileColumnStats t f c))).isSome → (w.get (.entity (.fileColumnStats t f c))).isSome

/-- All views of a state show one reading. -/
theorem Store.Lists.reading_eq {s : Store} {v w : CatalogSnapshot} (hv : s.Lists v) (hw : s.Lists w) :
    v.reading = w.reading := by
  have hsnapshot : v.snapshot = w.snapshot := Option.some.inj (hv.snapshot.symm.trans hw.snapshot)
  have hget : v.get = w.get := funext fun k => (hv.get k).trans (hw.get k).symm
  rw [CatalogSnapshot.reading, CatalogSnapshot.reading, hget, hsnapshot]

section Commit

variable {s : Store} {base view : CatalogSnapshot} {tx : Transaction}

/-- A commit that mints a snapshot passes on what its closure left. -/
theorem passes_minted {changes : List Operation → String × List Nat} {micros : Int} {poisoned : List Nat}
    (hs : s.Dated) (hbase : s.Lists base) (hdated : (s.commit (mintingMember base poisoned changes micros tx)).Dated)
    (hview : (s.commit (mintingMember base poisoned changes micros tx)).Lists view)
    (hstats : base.KeepsFileStats tx.state) : tx.reading.Passes view.reading := by
  have hm := mintingMember_changes base poisoned changes micros tx
  have hhead : (s.commit (mintingMember base poisoned changes micros tx)).head.snapshotId =
      base.snapshot.snapshotId + 1 := by
    rw [Store.commit_head, hm.minted]
    rfl
  have hsnapshot := hview.snapshot
  rw [hhead, Store.commit_snapshots (mintingMember_entity base poisoned micros tx), hm.minted, if_pos rfl] at hsnapshot
  have hminted : mintedSnapshot base changes micros tx = view.snapshot := Option.some.inj hsnapshot
  refine ⟨⟨poisoned, fun k hk => ?_⟩, fun t f c h => ?_, (congrArg SnapshotValue.nextCatalogId hminted).symm,
    (congrArg SnapshotValue.nextFileId hminted).symm⟩
  case refine_2 =>
    -- Statistics that the commit does not write are those it began with, and the closure has kept them.
    obtain ⟨r, hr⟩ := Option.isSome_iff_exists.mp h
    rcases hm.mem_current (k := .entity (.fileColumnStats t f c)) (r := r) ((hdated.get hview _).symm.trans hr)
      with h | h
    · rw [get_applyPoison] at h
      exact Option.isSome_map.symm.trans (congrArg Option.isSome h)
    · exact hstats t f c (congrArg Option.isSome ((hs.get hbase _).trans h))
  have hstaged : ¬ Unstaged base (applyPoison tx.state poisoned) k := by
    rcases k with ⟨⟨⟩⟩ | _
    all_goals first | exact id | cases hk
  change view.get k = (tx.state.get k).map (poisonRecord poisoned k)
  rw [hdated.get hview, hm.current_eq hs hbase hstaged, get_applyPoison]

/-- A commit of options passes on what it began with. -/
theorem passes_options {state : CatalogSnapshot} (hs : s.Dated) (hbase : s.Lists base)
    (hdated : (s.commit ⟨diffOptions base state, none⟩).Dated)
    (hview : (s.commit ⟨diffOptions base state, none⟩).Lists view) : base.reading.Passes view.reading := by
  have hsnapshot := hview.snapshot
  rw [Store.commit_head, Store.commit_snapshots (diffOptions_entity base state)] at hsnapshot
  have heq : base.snapshot = view.snapshot := Option.some.inj (hbase.snapshot.symm.trans hsnapshot)
  refine Reading.passes_of_eq (fun k hk => ?_) (congrArg SnapshotValue.nextCatalogId heq).symm
    (congrArg SnapshotValue.nextFileId heq).symm
  change view.get k = base.get k
  rw [hdated.get hview, hs.get hbase, current_commit_options s base state hk]

end Commit

/-! ## Sessions -/

/-- What has landed, the batch that is being formed, and the open closure's transaction. -/
structure Session where
  landed : DbState
  batch : Batch
  tx : Transaction

inductive SessionEvent where
  /-- The closure calls a verb and goes on. -/
  | call (call : Call)
  /-- The closure returns and is staged onto the batch, or refused there. -/
  | commit (micros : Int)
  /-- The closure fails, or its caller goes away. -/
  | abandon
  /-- The batch lands. -/
  | land
  /-- The batch is lost. -/
  | discard

namespace Session

/-- The next closure begins on the view the batch has reached. -/
def begin (landed : DbState) (batch : Batch) : Option Session :=
  match batch.refold with
  | .error _ => none
  | .ok b => some ⟨landed, b, .new b.view (b.view.snapshot.snapshotId + 1)⟩

/-- A new batch opens on the head view. -/
def reopen (landed : DbState) : Option Session :=
  match landed.catalog.materialize with
  | .error _ => none
  | .ok view => begin landed (.opened landed view)

variable (changes : List Operation → String × List Nat)

def step (s : Session) : SessionEvent → Option Session
  | .call call => some { s with tx := call.after s.tx }
  | .commit micros =>
    match s.batch.stageMember changes ⟨micros, fun _ => .ok () s.tx⟩ with
    | .error _ => begin s.landed s.batch
    | .ok (batch, _) => begin s.landed batch
  | .abandon => begin s.landed s.batch
  | .land => reopen s.batch.db
  | .discard => reopen s.landed

/-- A new catalog. -/
def start (micros : Int) (uuid : String) (encrypted : Bool) (dataPath : Option String) : Session :=
  let batch := (TravelRun.start micros uuid encrypted dataPath).batch
  ⟨batch.db, batch, .new batch.view (batch.view.snapshot.snapshotId + 1)⟩

variable {changes} {s s' : Session} {landed : DbState} {batch : Batch}

theorem begin_eq_some : begin landed batch = some s ↔
    ∃ b, batch.refold = .ok b ∧ s = ⟨landed, b, .new b.view (b.view.snapshot.snapshotId + 1)⟩ := by
  unfold begin
  cases batch.refold <;> simp [eq_comm]

theorem reopen_eq_some : reopen landed = some s ↔
    ∃ view, landed.catalog.materialize = .ok view ∧
      s = ⟨landed, .opened landed view, .new view (view.snapshot.snapshotId + 1)⟩ := by
  unfold reopen
  cases landed.catalog.materialize with
  | error e => simp
  | ok view =>
    simp only [begin_eq_some, Except.ok.injEq, exists_eq_left']
    constructor
    · rintro ⟨b, hb, rfl⟩
      obtain rfl : Batch.opened landed view = b := Except.ok.inj hb
      rfl
    · rintro rfl
      exact ⟨_, rfl, rfl⟩

/-! ## What every session keeps -/

/-- A batch as a run of its own. -/
def bare (batch : Batch) : TravelRun := ⟨batch, [], fun _ _ => none⟩

/-- The store is one that runs of commits lead to. -/
def Kept (db : DbState) : Prop := ∃ batch : Batch, (bare batch).Inv ∧ batch.db = db

theorem inv_bare {r : TravelRun} (hr : r.Inv) : (bare r.batch).Inv :=
  { dated := hr.dated, migration := hr.migration, stands := hr.stands, snapshots := hr.snapshots
    recorded := fun _ hx => absurd hx List.not_mem_nil, files := hr.files }

theorem inv_refolded {b : Batch} (hr : (bare batch).Inv) (hb : batch.refold = .ok b) : (bare b).Inv := by
  obtain ⟨hdb, -, -, hdone⟩ := Batch.refold_eq hb
  have hstore : (bare b).store = (bare batch).store := congrArg StoreState.catalog hdb
  refine ⟨hstore ▸ hr.dated, hstore ▸ hr.migration, fun b' hb' => ?_, hstore ▸ hr.snapshots,
    fun _ hx => absurd hx List.not_mem_nil, hstore ▸ hr.files⟩
  obtain rfl : b = b' := Except.ok.inj (hdone.symm.trans hb')
  rw [hstore]
  exact hr.stands b hb

/-- What holds in every session: the batch is refolded, it and what has landed are states that commits lead to, and
    the closure's transaction is one that verbs make of the batch's view. -/
structure Inv (s : Session) : Prop where
  landed : Kept s.landed
  batch : (bare s.batch).Inv
  folded : s.batch.refold = .ok s.batch
  grown : s.tx.GrownFrom s.batch.view (s.batch.view.snapshot.snapshotId + 1)
  fileStats : s.batch.view.KeepsFileStats s.tx.state

theorem Inv.dated (h : s.Inv) : s.batch.db.catalog.Dated := h.batch.dated

theorem Inv.lists (h : s.Inv) : s.batch.db.catalog.Lists s.batch.view := h.batch.stands _ h.folded

theorem inv_begin (hlanded : Kept landed) (hbatch : (bare batch).Inv) (h : begin landed batch = some s) : s.Inv := by
  obtain ⟨b, hb, rfl⟩ := begin_eq_some.mp h
  have hinv := inv_refolded hbatch hb
  obtain ⟨-, -, -, hdone⟩ := Batch.refold_eq hb
  have hv : (Transaction.new b.view (b.view.snapshot.snapshotId + 1)).state.Sound := hinv.base_sound hdone
  exact ⟨hlanded, hinv, hdone, .refl hv, fun _ _ _ h => h⟩

theorem inv_opened (h : Kept landed) {view : CatalogSnapshot} (hview : landed.catalog.materialize = .ok view) :
    (bare (.opened landed view)).Inv := by
  obtain ⟨batch, hinv, rfl⟩ := h
  refine { hinv with stands := fun b hb => ?_ }
  obtain rfl : Batch.opened batch.db view = b := Except.ok.inj hb
  exact (Store.shows_of_materialize hinv.dated.keyed hview).toLists

theorem inv_reopen (h : Kept landed) (hreopen : reopen landed = some s) : s.Inv := by
  obtain ⟨view, hview, -⟩ := reopen_eq_some.mp hreopen
  rw [reopen, hview] at hreopen
  exact inv_begin h (inv_opened h hview) hreopen

/-- A closure that joins the batch leaves a state that commits lead to. What it recorded operations for is passed
    on, and else what it began with. -/
theorem Inv.joined (h : s.Inv) {micros : Int} {b : Batch} (hjoined : Batch.Joined changes s.batch micros s.tx b) :
    (bare b).Inv ∧ ∀ b₁, b.refold = .ok b₁ →
      (s.tx.ops ≠ [] → s.tx.reading.Passes b₁.view.reading) ∧
      (s.tx.ops = [] → s.batch.view.reading.Passes b₁.view.reading) := by
  cases hjoined with
  | nothing hempty hdb hview =>
    have hstore : (bare b).store = (bare s.batch).store := congrArg StoreState.catalog hdb
    refine ⟨⟨hstore ▸ h.batch.dated, hstore ▸ h.batch.migration, fun b' hb' => ?_, hstore ▸ h.batch.snapshots,
      fun _ hx => absurd hx List.not_mem_nil, hstore ▸ h.batch.files⟩, fun b₁ hb₁ => ⟨absurd hempty, fun _ => ?_⟩⟩
    · rw [hstore, hview b' hb']
      exact h.batch.stands _ h.folded
    · rw [hview b₁ hb₁]
      exact Reading.passes_of_eq (fun _ _ => rfl) rfl rfl
  | options hempty hcatalog _ hfold =>
    have hinv : (bare b).Inv := TravelRun.inv_options h.batch h.folded h.grown hcatalog rfl hfold
    refine ⟨hinv, fun b₁ hb₁ => ⟨absurd hempty, fun _ => ?_⟩⟩
    have hlists := hinv.stands b₁ hb₁
    have hdated := hinv.dated
    rw [show (bare b).store = _ from hcatalog] at hlists hdated
    exact passes_options h.dated h.lists hdated hlists
  | minted entries poisoned _ hnonempty hstaged _ hcatalog _ hfold =>
    have hinv : (bare b).Inv := inv_bare (r := ⟨b, [(_, _)], fun _ _ => none⟩)
      (TravelRun.inv_minted h.batch h.folded h.grown hcatalog rfl hfold)
    refine ⟨hinv, fun b₁ hb₁ => ⟨fun _ => ?_, fun hempty => absurd hempty hnonempty⟩⟩
    have hlists := hinv.stands b₁ hb₁
    have hdated := hinv.dated
    rw [show (bare b).store = _ from hcatalog] at hlists hdated
    exact passes_minted h.dated h.lists hdated hlists h.fileStats

/-- A closure that is staged joins the batch. -/
theorem Inv.joined_of_stage (h : s.Inv) {micros : Int} {b : Batch} {id : Nat}
    (hstage : s.batch.stageMember changes ⟨micros, fun _ => .ok () s.tx⟩ = .ok (b, id)) :
    Batch.Joined changes s.batch micros s.tx b := by
  obtain ⟨b₁, tx, hb₁, hclosure, hjoined⟩ := Batch.stageMember_joined hstage
  obtain rfl : s.batch = b₁ := Except.ok.inj (h.folded.symm.trans hb₁)
  obtain rfl : s.tx = tx := (EStateM.Result.ok.inj hclosure).2
  exact hjoined

theorem inv_step {event : SessionEvent} (h : s.Inv) (hstep : s.step changes event = some s') : s'.Inv := by
  cases event with
  | call call =>
    cases hstep
    exact { h with
      grown := grown_after h.grown call
      fileStats := fun t f c hstats => (evolves_after call h.grown.sound).stays _ rfl (fun _ _ heq => by cases heq)
        (h.fileStats t f c hstats) }
  | commit micros =>
    rw [step] at hstep
    split at hstep
    · exact inv_begin h.landed h.batch hstep
    · next b id hstage => exact inv_begin h.landed (h.joined (h.joined_of_stage hstage)).1 hstep
  | abandon => exact inv_begin h.landed h.batch hstep
  | land => exact inv_reopen ⟨s.batch, h.batch, rfl⟩ hstep
  | discard => exact inv_reopen h.landed hstep

theorem inv_start (micros : Int) (uuid : String) (encrypted : Bool) (dataPath : Option String) :
    (start micros uuid encrypted dataPath).Inv := by
  have hinv := inv_bare (TravelRun.inv_start micros uuid encrypted dataPath)
  have hv : (start micros uuid encrypted dataPath).tx.state.Sound := hinv.base_sound rfl
  exact ⟨⟨_, hinv, rfl⟩, hinv, rfl, .refl hv, fun _ _ _ h => h⟩

section Start

variable (micros : Int) (uuid : String) (encrypted : Bool) (dataPath : Option String)

theorem start_records : (start micros uuid encrypted dataPath).tx.reading.records =
    fun k => (Store.bootstrap micros uuid encrypted dataPath).current[k]? := by
  have hinv := inv_start micros uuid encrypted dataPath
  exact funext fun k => hinv.dated.get hinv.lists k

/-- A new catalog holds the main schema and the global options. -/
theorem start_records_cases {k : CurrentKey} {r : EntityRecord}
    (h : (start micros uuid encrypted dataPath).tx.reading.records k = some r) :
    (k = .entity (.schema 0) ∧ ∃ value, r = .schema value ∧ value.schemaId = 0) ∨
      k = .entity (.option 0 0) ∧ ∃ value, r = .option 0 0 value := by
  rw [start_records] at h
  simp only [Store.bootstrap, getElem?_insert_ite] at h
  split at h
  · next hk => exact .inr ⟨hk, _, (Option.some.inj h).symm⟩
  · split at h
    · next hk => exact .inl ⟨hk, _, (Option.some.inj h).symm, rfl⟩
    · simp at h

theorem start_main : ((start micros uuid encrypted dataPath).tx.reading.records (.entity (.schema 0))).isSome := by
  rw [start_records]
  simp [Store.bootstrap]

theorem start_counters : (start micros uuid encrypted dataPath).tx.nextCatalogId = 1 ∧
    (start micros uuid encrypted dataPath).tx.nextFileId = 0 := by
  have hsnapshot : (Store.bootstrap micros uuid encrypted dataPath).snapshots[0]? =
      some (start micros uuid encrypted dataPath).batch.view.snapshot :=
    (inv_start micros uuid encrypted dataPath).lists.snapshot
  simp only [Store.bootstrap, Std.ExtTreeMap.getElem?_insert_self, Option.some.injEq] at hsnapshot
  exact ⟨(congrArg SnapshotValue.nextCatalogId hsnapshot).symm, (congrArg SnapshotValue.nextFileId hsnapshot).symm⟩

end Start

/-! ## What is passed on -/

/-- A new closure has begun on the view that the batch has reached. -/
def Begun (s : Session) : Prop := s.tx = .new s.batch.view (s.batch.view.snapshot.snapshotId + 1)

/-- The new closure knows what the view shows. -/
theorem Begun.reading (h : s.Begun) : s.tx.reading = s.batch.view.reading := by rw [h]; rfl

/-- The closure is staged and has recorded operations: the batch takes its records. -/
def joins (changes : List Operation → String × List Nat) (s : Session) (micros : Int) : Bool :=
  match s.batch.stageMember changes ⟨micros, fun _ => .ok () s.tx⟩ with
  | .error _ => false
  | .ok _ => !s.tx.ops.isEmpty

theorem commit_passes {micros : Int} (h : s.Inv) (hstep : s.step changes (.commit micros) = some s') :
    s'.landed = s.landed ∧ s'.Begun ∧
      (if s.joins changes micros then s.tx.reading else s.batch.view.reading).Passes s'.batch.view.reading := by
  rw [step] at hstep
  unfold joins
  split at hstep
  · next hrefused =>
    obtain ⟨b, hb, rfl⟩ := begin_eq_some.mp hstep
    obtain rfl : s.batch = b := Except.ok.inj (h.folded.symm.trans hb)
    rw [hrefused]
    exact ⟨rfl, rfl, Reading.passes_of_eq (fun _ _ => rfl) rfl rfl⟩
  · next b id hstage =>
    obtain ⟨b₁, hb₁, rfl⟩ := begin_eq_some.mp hstep
    obtain ⟨htx, hbase⟩ := (h.joined (h.joined_of_stage hstage)).2 b₁ hb₁
    rw [hstage]
    refine ⟨rfl, rfl, ?_⟩
    by_cases hops : s.tx.ops = []
    · simpa [hops] using hbase hops
    · simpa [hops] using htx hops

theorem abandon_passes (h : s.Inv) (hstep : s.step changes .abandon = some s') :
    s'.landed = s.landed ∧ s'.Begun ∧ s'.batch = s.batch := by
  obtain ⟨b, hb, rfl⟩ := begin_eq_some.mp hstep
  obtain rfl : s.batch = b := Except.ok.inj (h.folded.symm.trans hb)
  exact ⟨rfl, rfl, rfl⟩

theorem discard_passes (h : s.Inv) (hstep : s.step changes .discard = some s') :
    s'.landed = s.landed ∧ s'.Begun ∧ s.landed.catalog.Lists s'.batch.view := by
  obtain ⟨view, hview, rfl⟩ := reopen_eq_some.mp hstep
  exact ⟨rfl, rfl, (inv_opened h.landed hview).stands _ rfl⟩

theorem land_passes (h : s.Inv) (hstep : s.step changes .land = some s') :
    s'.Begun ∧ s'.batch.view.reading = s.batch.view.reading ∧
      ∀ view, s'.landed.catalog.Lists view → view.reading = s.batch.view.reading := by
  obtain ⟨view, hview, rfl⟩ := reopen_eq_some.mp hstep
  have hlists := (inv_opened ⟨s.batch, h.batch, rfl⟩ hview).stands _ rfl
  exact ⟨rfl, hlists.reading_eq h.lists, fun view' hview' => hview'.reading_eq h.lists⟩

/-! ## What calls keep -/

/-- The property holds of what the closure knows, of the view the batch has reached, and of what has landed. -/
structure Holds (P : Reading → Prop) (s : Session) : Prop where
  tx : P s.tx.reading
  batch : P s.batch.view.reading
  landed : ∀ view, s.landed.catalog.Lists view → P view.reading

variable {P : Reading → Prop}

/-- Where calls keep a blind property exactly if they meet `q`, so do all steps: the others keep it. -/
theorem holds_step_iff (hP : Blind P) {q : Transaction → Call → Prop}
    (hcall : ∀ call, s.tx.state.Sound → P s.tx.reading → (P (call.after s.tx).reading ↔ q s.tx call))
    {event : SessionEvent} (hinv : s.Inv) (h : s.Holds P) (hstep : s.step changes event = some s') :
    s'.Holds P ↔ ∀ call, event = .call call → q s.tx call := by
  cases event with
  | call call =>
    cases hstep
    refine Iff.trans ?_ ((hcall call hinv.grown.sound h.tx).trans ⟨fun hq _ heq => ?_, fun hq => hq call rfl⟩)
    · exact ⟨fun h' => h'.tx, fun htx => ⟨htx, h.batch, h.landed⟩⟩
    · cases heq
      exact hq
  | commit micros =>
    refine iff_of_true ?_ nofun
    obtain ⟨hlanded, hbegun, hpasses⟩ := commit_passes hinv hstep
    have hbatch : P s'.batch.view.reading := by
      refine hP _ _ hpasses ?_
      split
      · exact h.tx
      · exact h.batch
    exact ⟨hbegun.reading ▸ hbatch, hbatch, hlanded ▸ h.landed⟩
  | abandon =>
    obtain ⟨hlanded, hbegun, hbatch⟩ := abandon_passes hinv hstep
    have hbatch : P s'.batch.view.reading := hbatch ▸ h.batch
    exact iff_of_true ⟨hbegun.reading ▸ hbatch, hbatch, hlanded ▸ h.landed⟩ nofun
  | land =>
    obtain ⟨hbegun, hbatch, hlanded⟩ := land_passes hinv hstep
    have hbatch : P s'.batch.view.reading := hbatch ▸ h.batch
    exact iff_of_true ⟨hbegun.reading ▸ hbatch, hbatch, fun view hview => hlanded view hview ▸ h.batch⟩ nofun
  | discard =>
    obtain ⟨hlanded, hbegun, hlists⟩ := discard_passes hinv hstep
    have hbatch := h.landed _ hlists
    exact iff_of_true ⟨hbegun.reading ▸ hbatch, hbatch, hlanded ▸ h.landed⟩ nofun

section Runs

variable {J : Reading → Prop} (hJ : Blind J)
  (hkeeps : ∀ tx call, tx.state.Sound → J tx.reading → J (Call.after call tx).reading)
  (micros : Int) (uuid : String) (encrypted : Bool) (dataPath : Option String)
  (hJstart : J (start micros uuid encrypted dataPath).tx.reading)

theorem holds_start (hP : P (start micros uuid encrypted dataPath).tx.reading) :
    (start micros uuid encrypted dataPath).Holds P := by
  refine ⟨hP, hP, fun view hview => ?_⟩
  rw [hview.reading_eq (inv_start micros uuid encrypted dataPath).lists]
  exact hP

include hJ hkeeps hJstart

/-- What is blind and kept by every call holds along every run from a new catalog on. -/
theorem always_holds (events : List SessionEvent) :
    Runs.Always (step changes) (fun s => s.Inv ∧ s.Holds J) (start micros uuid encrypted dataPath) events := by
  refine Runs.always_of_throughout (q := fun _ _ => True) ?_
    ⟨inv_start micros uuid encrypted dataPath, holds_start micros uuid encrypted dataPath hJstart⟩
    (Runs.throughout_of_forall fun _ _ => trivial)
  rintro s event s' ⟨hinv, h⟩ - hstep
  refine ⟨inv_step hinv hstep, ?_⟩
  exact (holds_step_iff (q := fun _ _ => True) hJ (fun call hv h => iff_true_intro (hkeeps _ call hv h)) hinv h
    hstep).mpr
    fun _ _ => trivial

/-- Under what is always kept, a run keeps a blind property exactly if its calls meet what single calls need to. -/
theorem always_holds_iff (hP : Blind P) {q : Transaction → Call → Prop}
    (hcall : ∀ tx call, tx.state.Sound → J tx.reading → P tx.reading → (P (Call.after call tx).reading ↔ q tx call))
    (hstart : P (start micros uuid encrypted dataPath).tx.reading) (events : List SessionEvent) :
    Runs.Always (step changes) (Holds P) (start micros uuid encrypted dataPath) events ↔
      Runs.Throughout (step changes) (fun s event => ∀ call, event = .call call → q s.tx call)
        (start micros uuid encrypted dataPath) events := by
  have hinv := inv_start micros uuid encrypted dataPath
  refine Runs.always_iff_throughout (I := fun s => s.Inv ∧ s.Holds J) ?_ ?_
    ⟨hinv, holds_start micros uuid encrypted dataPath hJstart⟩ (holds_start micros uuid encrypted dataPath hstart)
  · rintro s event s' ⟨hs, hJs⟩ hstep
    refine ⟨inv_step hs hstep, ?_⟩
    exact (holds_step_iff (q := fun _ _ => True) hJ (fun call hv h => iff_true_intro (hkeeps _ call hv h)) hs hJs
      hstep).mpr fun _ _ => trivial
  · rintro s event s' ⟨hs, hJs⟩ h hstep
    exact holds_step_iff hP (fun call hv => hcall s.tx call hv hJs.tx) hs h hstep

end Runs

end Session

end Moraine
