-- SUMMARY: Sessions that keep an account beside them: what calls enter, commits settle, and lost work takes back.
import Moraine.Transaction.Atomicity
import Moraine.Transaction.Sessions
import Moraine.Transaction.TableRows

/-!
# Ledgers

What has ever happened is not in a view. A ledger runs a session and keeps an account of it: each call enters what it
did, a commit settles the closure's account with the batch, a batch that lands passes its own on to what has landed,
and work that is given up or lost takes its entries back. There is one account for the open closure, one for the
batch and one for what has landed.

A state of the store stands at the records of its view, its head snapshot, its live files and its inline records. A
property of standings and their account holds along every run exactly if the calls and the commits meet what single
ones need to.
-/

namespace Moraine

open CatalogSnapshot Transaction

/-! ## Standings -/

/-- What a state of the store stands at. -/
structure Standing where
  reading : Reading
  head : Nat
  /-- The live data files of each table. -/
  files : Nat → List DataFileValue
  inline : InlineStore ArrowRow

/-- The standing of a store with the view. -/
def StoreState.standing (db : DbState) (view : CatalogSnapshot) : Standing :=
  ⟨view.reading, view.snapshot.snapshotId, view.dataFilesOf, db.inline⟩

/-- The standing that a closure leaves which writes these inline records. -/
def Transaction.standing (tx : Transaction) (inline : InlineStore ArrowRow) : Standing :=
  ⟨tx.reading, tx.newSnapshotId, tx.state.dataFilesOf, inline⟩

/-- The second standing is the first up to what a commit does not pass on. -/
structure Standing.Passes (a b : Standing) : Prop where
  reading : a.reading.Passes b.reading
  head : b.head = a.head
  files : b.files = a.files
  inline : b.inline = a.inline

/-- Poison is for indexes only. -/
theorem files_of_passes {v w : CatalogSnapshot}
    (h : ∃ poisoned, ∀ k : CurrentKey, k.settled → w.get k = (v.get k).map (poisonRecord poisoned k)) :
    w.dataFilesOf = v.dataFilesOf := by
  obtain ⟨poisoned, hrecords⟩ := h
  refine funext fun t => dataFilesOf_of_getNested fun f => ?_
  have hfile := hrecords (.entity (.file t f)) rfl
  simp only [CatalogSnapshot.get] at hfile
  rw [Option.map_map] at hfile
  exact Option.map_injective (fun a b hab => by cases hab; rfl) hfile

/-- All views of a state give one standing. -/
theorem Store.Lists.standing_eq {db : DbState} {v w : CatalogSnapshot} (hv : db.catalog.Lists v)
    (hw : db.catalog.Lists w) : db.standing v = db.standing w := by
  have hsnapshot : v.snapshot = w.snapshot := Option.some.inj (hv.snapshot.symm.trans hw.snapshot)
  have hreading := hv.reading_eq hw
  have hfiles : v.dataFilesOf = w.dataFilesOf :=
    funext (dataFilesOf_congr (congrFun (congrArg Reading.records hreading)))
  rw [StoreState.standing, StoreState.standing, hreading, hsnapshot, hfiles]

namespace Session

variable {changes : List Operation → String × List Nat} {s s' : Session}

/-- What the batch stands at. -/
def standing (s : Session) : Standing := s.batch.db.standing s.batch.view

/-- A commit passes on what the closure leaves with its inline writes, or what the batch stood at. -/
theorem commit_stands {micros : Int} (h : s.Inv) (hstep : s.step changes (.commit micros) = some s') :
    if s.joins changes micros then
      ∃ writes, s.batch.db.inline.stageInlineWrites s.tx.inlineOps = .ok writes ∧
        (s.tx.standing (s.batch.db.inline.applyAll writes)).Passes s'.standing
    else s.standing.Passes s'.standing := by
  obtain ⟨-, -, hpasses⟩ := commit_passes h hstep
  rw [step] at hstep
  unfold joins at hpasses ⊢
  split at hstep
  next hrefused =>
    obtain ⟨b, hb, rfl⟩ := begin_eq_some.mp hstep
    obtain rfl : s.batch = b := Except.ok.inj (h.folded.symm.trans hb)
    rw [hrefused] at hpasses ⊢
    exact ⟨hpasses, rfl, rfl, rfl⟩
  next b id hstage =>
    obtain ⟨b₁, hb₁, rfl⟩ := begin_eq_some.mp hstep
    obtain ⟨hdb, -⟩ := Batch.refold_eq hb₁
    rw [hstage] at hpasses ⊢
    have hsame : b₁.db.inline = b.db.inline := congrArg StoreState.inline hdb
    cases h.joined_of_stage hstage with
    | nothing hempty hdbs hview =>
      simp only [hempty, List.isEmpty_nil, Bool.not_true, Bool.false_eq_true, if_false] at hpasses ⊢
      exact ⟨hpasses, congrArg (·.snapshot.snapshotId) (hview b₁ hb₁), files_of_passes hpasses.records, by
        simp only [standing, StoreState.standing, hsame, hdbs]⟩
    | options hempty hcatalog hinline hfold =>
      simp only [hempty, List.isEmpty_nil, Bool.not_true, Bool.false_eq_true, if_false] at hpasses ⊢
      have hstamp := (Member.stamps_foldBatch (diffOptions_entity _ _) (hfold b₁ hb₁)).1
      exact ⟨hpasses, congrArg SnapshotValue.snapshotId hstamp, files_of_passes hpasses.records, hsame.trans hinline⟩
    | minted entries poisoned writes hnonempty hstaged hwrites hcatalog hinline hfold =>
      have hops : (!s.tx.ops.isEmpty) = true := by simpa [List.isEmpty_iff] using hnonempty
      simp only [hops, if_true] at hpasses ⊢
      have hstamp := (Member.stamps_foldBatch (mintingMember_entity _ _ _ _) (hfold b₁ hb₁)).1
      refine ⟨writes, hwrites, hpasses, ?_, files_of_passes hpasses.records, hsame.trans hinline⟩
      have hminted : (mintingMember s.batch.view poisoned changes micros s.tx).minted.map SnapshotValue.snapshotId =
          some (s.batch.view.snapshot.snapshotId + 1) := by
        simp only [mintingMember, mintedSnapshot, Option.map_some]
      obtain ⟨value, hvalue, hid⟩ := Option.map_eq_some_iff.mp hminted
      rw [hvalue] at hstamp
      exact (congrArg SnapshotValue.snapshotId hstamp).trans (hid.trans h.grown.snapshot.symm)

end Session

/-- A session and the accounts of its closure, its batch and what has landed. -/
structure Ledger (G : Type) where
  session : Session
  tx : G
  batch : G
  landed : G

namespace Ledger

variable {G : Type} (changes : List Operation → String × List Nat) (enter : Transaction → Call → G → G)
  (settle : Transaction → InlineStore ArrowRow → G → G)

def step (s : Ledger G) (event : SessionEvent) : Option (Ledger G) :=
  (s.session.step changes event).map fun session =>
    match event with
    | .call call => { s with session, tx := enter s.session.tx call s.tx }
    | .commit micros =>
      let passed :=
        if s.session.joins changes micros then settle s.session.tx s.session.batch.db.inline s.tx else s.batch
      { s with session, tx := passed, batch := passed }
    | .abandon => { s with session, tx := s.batch }
    | .land => { session, tx := s.batch, batch := s.batch, landed := s.batch }
    | .discard => { session, tx := s.landed, batch := s.landed, landed := s.landed }

/-- A new catalog, with an account that has been opened. -/
def start (micros : Int) (uuid : String) (encrypted : Bool) (dataPath : Option String) (opened : G) : Ledger G :=
  ⟨Session.start micros uuid encrypted dataPath, opened, opened, opened⟩

/-- The closure's transaction agrees with its account, on the inline records it will be staged onto; what the batch
    and the landed store stand at agrees with theirs. -/
structure Holds (T : Transaction → InlineStore ArrowRow → G → Prop) (V : Standing → G → Prop) (s : Ledger G) :
    Prop where
  tx : T s.session.tx s.session.batch.db.inline s.tx
  batch : V s.session.standing s.batch
  landed : ∀ view, s.session.landed.catalog.Lists view → V (s.session.landed.standing view) s.landed

variable {changes} {enter} {settle} {s s' : Ledger G} {T : Transaction → InlineStore ArrowRow → G → Prop}
  {V : Standing → G → Prop}

theorem inv_step {event : SessionEvent} (h : s.session.Inv) (hstep : s.step changes enter settle event = some s') :
    s'.session.Inv := by
  obtain ⟨session, hsession, rfl⟩ := Option.map_eq_some_iff.mp hstep
  cases event <;> exact Session.inv_step h hsession

/-- What the batch and the landed store stand at agrees with their accounts. -/
def Stands (V : Standing → G → Prop) (s : Ledger G) : Prop :=
  V s.session.standing s.batch ∧
    ∀ view, s.session.landed.catalog.Lists view → V (s.session.landed.standing view) s.landed

section Keeps

variable {P : Standing → G → Prop} (hP : ∀ {a g}, V a g → P a g) (hV : ∀ {a b g}, Standing.Passes a b → V a g → V b g)
  (hback : ∀ {a b g}, Standing.Passes a b → P b g → P a g)
  (hnew : ∀ {db view g}, V (StoreState.standing db view) g →
    T (.new view (view.snapshot.snapshotId + 1)) db.inline g)
  {scope : Ledger G → SessionEvent → Prop} {c : Ledger G → Prop}
  (hcall : ∀ {s call}, s.session.Inv → scope s (.call call) → T s.session.tx s.session.batch.db.inline s.tx →
    T (call.after s.session.tx) s.session.batch.db.inline (enter s.session.tx call s.tx))
  (hcommit : ∀ {s micros writes}, s.session.Inv → scope s (.commit micros) → s.session.joins changes micros →
    s.session.batch.db.inline.stageInlineWrites s.session.tx.inlineOps = .ok writes →
    T s.session.tx s.session.batch.db.inline s.tx →
    (c s → V (s.session.tx.standing (s.session.batch.db.inline.applyAll writes))
      (settle s.session.tx s.session.batch.db.inline s.tx)) ∧
    (P (s.session.tx.standing (s.session.batch.db.inline.applyAll writes))
      (settle s.session.tx s.session.batch.db.inline s.tx) → c s))

include hV hback hnew hcall hcommit

/-- In scope all steps keep the agreement but commits that do not meet `c`, and after those the batch's is lost. -/
theorem holds_step {event : SessionEvent} (hinv : s.session.Inv) (h : s.Holds T V) (hscope : scope s event)
    (hstep : s.step changes enter settle event = some s') :
    ((∀ micros, event = .commit micros → s.session.joins changes micros → c s) → s'.Holds T V) ∧
      (s'.Stands P → ∀ micros, event = .commit micros → s.session.joins changes micros → c s) := by
  obtain ⟨session, hsession, rfl⟩ := Option.map_eq_some_iff.mp hstep
  have hbegins : ∀ {g}, session.Begun → V session.standing g → T session.tx session.batch.db.inline g := by
    intro g hbegun hbatch
    rw [hbegun]
    exact hnew hbatch
  cases event with
  | call call =>
    cases hsession
    exact ⟨fun _ => ⟨hcall hinv hscope h.tx, h.batch, h.landed⟩, fun _ => nofun⟩
  | commit micros =>
    obtain ⟨hlanded, hbegun, -⟩ := Session.commit_passes hinv hsession
    have hstands := Session.commit_stands hinv hsession
    cases hjoins : s.session.joins changes micros with
    | false =>
      rw [hjoins] at hstands
      have hbatch := hV hstands h.batch
      refine ⟨fun _ => ?_, fun _ _ heq hj => ?_⟩
      · simp only [hjoins, Bool.false_eq_true, if_false]
        exact ⟨hbegins hbegun hbatch, hbatch, hlanded ▸ h.landed⟩
      · cases heq
        rw [hjoins] at hj
        cases hj
    | true =>
      rw [hjoins] at hstands
      obtain ⟨writes, hwrites, hpasses⟩ := hstands
      obtain ⟨hkeep, hmeet⟩ := hcommit hinv hscope hjoins hwrites h.tx
      simp only [hjoins, if_true]
      refine ⟨fun hc => ?_, fun hstands _ _ _ => hmeet (hback hpasses hstands.1)⟩
      have hbatch := hV hpasses (hkeep (hc micros rfl hjoins))
      exact ⟨hbegins hbegun hbatch, hbatch, hlanded ▸ h.landed⟩
  | abandon =>
    obtain ⟨hlanded, hbegun, hbatch⟩ := Session.abandon_passes hinv hsession
    have hbatch : V session.standing s.batch := by
      rw [Session.standing, hbatch]
      exact h.batch
    exact ⟨fun _ => ⟨hbegins hbegun hbatch, hbatch, hlanded ▸ h.landed⟩, fun _ => nofun⟩
  | land =>
    obtain ⟨view, hview, rfl⟩ := Session.reopen_eq_some.mp hsession
    have hlists := (Session.inv_opened ⟨_, hinv.batch, rfl⟩ hview).stands _ rfl
    have hstands (view') (hview' : s.session.batch.db.catalog.Lists view') :
        V (s.session.batch.db.standing view') s.batch := by
      rw [hview'.standing_eq hinv.lists]
      exact h.batch
    exact ⟨fun _ => ⟨hbegins rfl (hstands _ hlists), hstands _ hlists, hstands⟩, fun _ => nofun⟩
  | discard =>
    obtain ⟨view, hview, rfl⟩ := Session.reopen_eq_some.mp hsession
    have hlists := (Session.inv_opened hinv.landed hview).stands _ rfl
    exact ⟨fun _ => ⟨hbegins rfl (h.landed _ hlists), h.landed _ hlists, h.landed⟩, fun _ => nofun⟩

include hP

/-- A run in scope keeps the agreement of the stores with their accounts exactly if its commits meet `c`. -/
theorem always_stands_iff (micros : Int) (uuid : String) (encrypted : Bool) (dataPath : Option String) {opened : G}
    (hstart : V (Session.start micros uuid encrypted dataPath).standing opened) {events : List SessionEvent}
    (hscope : Runs.Throughout (step changes enter settle) scope (start micros uuid encrypted dataPath opened) events) :
    Runs.Always (step changes enter settle) (Stands P) (start micros uuid encrypted dataPath opened) events ↔
      Runs.Throughout (step changes enter settle)
        (fun s event => ∀ micros, event = .commit micros → s.session.joins changes micros → c s)
        (start micros uuid encrypted dataPath opened) events := by
  have hinv := Session.inv_start micros uuid encrypted dataPath
  refine Runs.always_iff_throughout_within (H := fun s => s.session.Inv ∧ s.Holds T V)
    (fun h => ⟨hP h.2.batch, fun view hview => hP (h.2.landed view hview)⟩) ?_
    ⟨hinv, hnew hstart, hstart, fun view hview => ?_⟩ hscope
  · rintro s event s' ⟨hs, h⟩ hin hstep
    obtain ⟨hkeep, hmeet⟩ := holds_step (V := V) (P := P) (c := c) hV hback hnew hcall hcommit hs h hin hstep
    exact ⟨fun hc => ⟨inv_step hs hstep, hkeep hc⟩, hmeet⟩
  · rw [Store.Lists.standing_eq (w := (Session.start micros uuid encrypted dataPath).batch.view) hview hinv.lists]
    exact hstart

end Keeps

end Ledger

end Moraine
