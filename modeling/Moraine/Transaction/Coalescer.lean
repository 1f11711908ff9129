-- SUMMARY: The rendezvous at which concurrent commits become one batch, under every interleaving of callers and tasks.
import Moraine.Base.Runs
import Moraine.Transaction.Batch

/-!
# The coalescer

A caller that arrives is counted. Once no batch is in flight it is let in alone, stages its closures onto the batch
that is forming or onto a new one, and is counted no more. The batch is sealed when nobody is on the way to it, or
when it is full, and a task of its own writes it. A caller that fails throws the batch away, and the last counted one
that goes away leaves a task behind which seals what nobody else will.

An event is what one caller or task does between two points at which others may run. The lock is held while a caller
stages, so what is done under it otherwise is part of one event.
-/

namespace Moraine

/-- The most commits one batch carries. -/
def MAX_BATCH_MEMBERS : Nat := 64

/-- What a sealed batch did, told to every member that rode it. -/
inductive Outcome where
  | committed
  | lostRace
  /-- The write failed, or the batch was abandoned before it was sealed. -/
  | nothing
  deriving DecidableEq

/-- What an attempt comes to. -/
inductive CommitOutcome where
  | committed (ids : List Nat)
  | lostRace (headBefore : Nat)
  | nothing
  | failed (e : Error)

structure Caller where
  id : Nat
  members : List Request

/-- An open batch, with the number of commits that its transaction sees and the channel its outcome is told on. -/
structure OpenBatch where
  batch : Batch
  begun : Nat
  channel : Nat

/-- What a caller waits with that has put something into a batch. -/
structure Ride where
  caller : Nat
  ids : List Nat
  headBefore : Nat
  channel : Nat
  /-- The batch's writes up to the caller's last one. -/
  upto : List StagedWrite

/-- What the attempt comes to for a caller that rode the batch. -/
def Ride.answer (ride : Ride) : Outcome → CommitOutcome
  | .committed => .committed ride.ids
  | .lostRace => .lostRace ride.headBefore
  | .nothing => .nothing

/-- What a caller is answered, and its ride if it had one. -/
structure Answer where
  caller : Nat
  ride : Option Ride
  outcome : CommitOutcome

/-- How the store takes a durable write. -/
inductive WriteReport where
  /-- The batch is durable, or another commit came first. -/
  | settles
  /-- The write fails, before or after the batch is durable. -/
  | fails (durable : Bool)

inductive CoalescerEvent where
  | arrive (caller : Caller)
  /-- A waiting caller is let in. If it has to open a batch, the transaction begins or it does not. -/
  | admission (i : Nat) (begins : Bool)
  /-- The caller that is in has run its closures. -/
  | stage
  | cancelHolder
  | cancelWaiting (i : Nat)
  | cancelRiding (i : Nat)
  /-- A caller that failed or went away drops its arrival, inside of a runtime or outside. -/
  | dropArrival (runtime : Bool)
  | write (i : Nat) (report : WriteReport)
  /-- A task that has told its outcome reopens the store. -/
  | reopen (i : Nat)
  | sealAbandoned
  /-- A caller reads what became of its batch. -/
  | hear (i : Nat)
  /-- A commit that does not pass here reaches the store. -/
  | elsewhere (db : DbState)

/-- An event that is neither a new caller nor another writer's. -/
def CoalescerEvent.isInternal : CoalescerEvent → Bool
  | .arrive _ | .elsewhere _ => false
  | _ => true

structure Coalescer where
  db : DbState
  /-- The commits that have reached the store. -/
  commits : Nat := 0
  forming : Option OpenBatch := none
  inFlight : Bool := false
  /-- The callers that have arrived and not yet staged. -/
  arriving : Nat := 0
  waiting : List Caller := []
  /-- The caller that has the lock, with the batch it took out. -/
  holder : Option (Caller × OpenBatch) := none
  /-- The callers that have yet to drop their arrival. -/
  dropping : Nat := 0
  /-- The tasks that land a batch, with what they told of it. -/
  landing : List (OpenBatch × Option Outcome) := []
  /-- The tasks that seal what is abandoned. -/
  sealing : Nat := 0
  riding : List Ride := []
  told : Nat → Option Outcome := fun _ => none
  nextChannel : Nat := 0
  /-- The batches that have reached the store. -/
  landed : List OpenBatch := []
  arrivals : List Nat := []
  answers : List Answer := []
  gone : List Nat := []

namespace Coalescer

/-! ## What callers and tasks do -/

/-- The caller fails. What it held is dropped, and then its arrival is. -/
def fail (s : Coalescer) (caller : Nat) (e : Error) : Coalescer :=
  { s with dropping := s.dropping + 1, answers := ⟨caller, none, .failed e⟩ :: s.answers }

/-- The caller goes away before it has staged. -/
def leave (s : Coalescer) (caller : Nat) : Coalescer :=
  { s with dropping := s.dropping + 1, gone := caller :: s.gone }

/-- The admitted caller takes the forming batch, or opens one on the head view. -/
def enter (s : Coalescer) (caller : Caller) (begins : Bool) : Coalescer :=
  match s.forming with
  | some o => { s with forming := none, holder := some (caller, o) }
  | none =>
    if begins then
      match s.db.catalog.materialize with
      | .error e => s.fail caller.id e
      | .ok view =>
        { s with
          holder := some (caller, ⟨.opened s.db view, s.commits, s.nextChannel⟩)
          nextChannel := s.nextChannel + 1 }
    else s.fail caller.id .store

def launch (s : Coalescer) (o : OpenBatch) : Coalescer :=
  { s with inFlight := true, landing := (o, none) :: s.landing }

/-- What becomes of the batch that a caller has staged onto. Nobody else on their way in means nobody else to wait
    for; an empty batch is rolled back. -/
def dispose (s : Coalescer) (o : OpenBatch) : Coalescer :=
  if (s.arriving = 0 ∨ MAX_BATCH_MEMBERS ≤ o.batch.members) ∧ o.batch.writes ≠ [] then s.launch o
  else if o.batch.writes = [] then s
  else { s with forming := some o }

/-- A caller that put something into the batch waits for it, another one is answered. -/
def board (s : Coalescer) (caller : Nat) (ids : List Nat) (before : Nat) (o : OpenBatch) : Coalescer :=
  let contributed := before < o.batch.writes.length
  { s with
    riding :=
      if contributed then ⟨caller, ids, o.batch.headBefore, o.channel, o.batch.writes⟩ :: s.riding else s.riding
    answers := if contributed then s.answers else ⟨caller, none, .committed ids⟩ :: s.answers }

/-- What a write of the batch leads to. A commit since the transaction began has written the head too. -/
def written (s : Coalescer) (o : OpenBatch) : WriteReport → Outcome
  | .settles => if o.begun = s.commits then .committed else .lostRace
  | .fails _ => .nothing

/-- Whether the write of the batch reaches the store. -/
def reaches (s : Coalescer) (o : OpenBatch) : WriteReport → Bool
  | .settles => o.begun = s.commits
  | .fails durable => durable && o.begun = s.commits

/-- The batch reaches the store, if it does, and its members are told. -/
def land (s : Coalescer) (i : Nat) (o : OpenBatch) (report : WriteReport) : Coalescer :=
  { s with
    db := if s.reaches o report then o.batch.db else s.db
    commits := if s.reaches o report then s.commits + 1 else s.commits
    landed := if s.reaches o report then o :: s.landed else s.landed
    told := Function.update s.told o.channel (some (s.written o report))
    landing := s.landing.set i (o, some (s.written o report)) }

def sealForming (s : Coalescer) : Coalescer :=
  if s.inFlight ∨ 0 < s.arriving then s
  else
    match s.forming with
    | none => s
    | some o => if o.batch.writes = [] then { s with forming := none } else { s with forming := none }.launch o

/-- The batches that may still be told of. -/
def openBatches (s : Coalescer) : List OpenBatch :=
  s.forming.toList ++ s.holder.toList.map Prod.snd ++ s.landing.filterMap fun x => if x.2.isNone then some x.1 else none

/-- What a rider hears. A sender dropped with nothing published means that the batch was abandoned. -/
def awaitOutcome (s : Coalescer) (channel : Nat) : Option Outcome :=
  match s.told channel with
  | some outcome => some outcome
  | none => if s.openBatches.any (·.channel == channel) then none else some .nothing

variable (changes : List Operation → String × List Nat)

def step (s : Coalescer) : CoalescerEvent → Option Coalescer
  | .arrive caller =>
    some { s with
      arriving := s.arriving + 1, waiting := caller :: s.waiting, arrivals := caller.id :: s.arrivals }
  | .admission i begins =>
    match s.waiting[i]? with
    | none => none
    | some caller =>
      if s.holder.isSome ∨ s.inFlight then none
      else some (enter { s with waiting := s.waiting.eraseIdx i } caller begins)
  | .stage =>
    match s.holder with
    | none => none
    | some (caller, o) =>
      match o.batch.stage changes caller.members with
      | .error (e, _) => some (fail { s with holder := none } caller.id e)
      | .ok (batch, ids) =>
        some ((dispose { s with holder := none, arriving := s.arriving - 1 } { o with batch }).board caller.id ids
          o.batch.writes.length { o with batch })
  | .cancelHolder => s.holder.map fun held => leave { s with holder := none } held.1.id
  | .cancelWaiting i => s.waiting[i]?.map fun caller => leave { s with waiting := s.waiting.eraseIdx i } caller.id
  | .cancelRiding i =>
    s.riding[i]?.map fun ride => { s with riding := s.riding.eraseIdx i, gone := ride.caller :: s.gone }
  | .dropArrival runtime =>
    if s.dropping = 0 then none
    else
      some { s with
        dropping := s.dropping - 1
        arriving := s.arriving - 1
        sealing := if s.arriving = 1 ∧ runtime then s.sealing + 1 else s.sealing }
  | .write i report =>
    match s.landing[i]? with
    | some (o, none) => some (s.land i o report)
    | _ => none
  | .reopen i =>
    match s.landing[i]? with
    | some (_, some _) =>
      if s.holder.isSome then none else some { s with landing := s.landing.eraseIdx i, inFlight := false }
    | _ => none
  | .sealAbandoned =>
    if s.sealing = 0 ∨ s.holder.isSome then none else some (sealForming { s with sealing := s.sealing - 1 })
  | .hear i =>
    s.riding[i]?.bind fun ride => (s.awaitOutcome ride.channel).map fun outcome =>
      { s with riding := s.riding.eraseIdx i, answers := ⟨ride.caller, some ride, ride.answer outcome⟩ :: s.answers }
  | .elsewhere db => some { s with db, commits := s.commits + 1 }

/-- What an event does, and when. -/
inductive Moves (s : Coalescer) : CoalescerEvent → Coalescer → Prop where
  | arrive (caller : Caller) : Moves s (.arrive caller)
      { s with arriving := s.arriving + 1, waiting := caller :: s.waiting, arrivals := caller.id :: s.arrivals }
  | joins {i : Nat} {begins : Bool} {caller : Caller} {o : OpenBatch} (waits : s.waiting[i]? = some caller)
      (free : s.holder = none) (grounded : s.inFlight = false) (forming : s.forming = some o) :
      Moves s (.admission i begins)
        { s with waiting := s.waiting.eraseIdx i, forming := none, holder := some (caller, o) }
  | opens {i : Nat} {begins : Bool} {caller : Caller} {view : CatalogSnapshot} (waits : s.waiting[i]? = some caller)
      (free : s.holder = none) (grounded : s.inFlight = false) (none : s.forming = none)
      (shows : s.db.catalog.materialize = .ok view) : Moves s (.admission i begins)
        { s with
          waiting := s.waiting.eraseIdx i
          holder := some (caller, ⟨.opened s.db view, s.commits, s.nextChannel⟩)
          nextChannel := s.nextChannel + 1 }
  | refused {i : Nat} {begins : Bool} {caller : Caller} (e : Error) (waits : s.waiting[i]? = some caller) :
      Moves s (.admission i begins) (fail { s with waiting := s.waiting.eraseIdx i } caller.id e)
  | launches {caller : Caller} {o : OpenBatch} {batch : Batch} {ids : List Nat} (holds : s.holder = some (caller, o))
      (stages : o.batch.stage changes caller.members = .ok (batch, ids)) (writes : batch.writes ≠ []) :
      Moves s .stage ((launch { s with holder := none, arriving := s.arriving - 1 } { o with batch }).board caller.id
        ids o.batch.writes.length { o with batch })
  | rollsBack {caller : Caller} {o : OpenBatch} {batch : Batch} {ids : List Nat} (holds : s.holder = some (caller, o))
      (stages : o.batch.stage changes caller.members = .ok (batch, ids)) (empty : batch.writes = []) :
      Moves s .stage (board { s with holder := none, arriving := s.arriving - 1 } caller.id ids
        o.batch.writes.length { o with batch })
  | forms {caller : Caller} {o : OpenBatch} {batch : Batch} {ids : List Nat} (holds : s.holder = some (caller, o))
      (stages : o.batch.stage changes caller.members = .ok (batch, ids)) (writes : batch.writes ≠ [])
      (awaited : s.arriving - 1 ≠ 0) :
      Moves s .stage (board { s with holder := none, arriving := s.arriving - 1, forming := some { o with batch } }
        caller.id ids o.batch.writes.length { o with batch })
  | stageFails {caller : Caller} {o : OpenBatch} (e : Error) (holds : s.holder = some (caller, o)) :
      Moves s .stage (fail { s with holder := none } caller.id e)
  | cancelHolder {caller : Caller} {o : OpenBatch} (holds : s.holder = some (caller, o)) :
      Moves s .cancelHolder (leave { s with holder := none } caller.id)
  | cancelWaiting {i : Nat} {caller : Caller} (waits : s.waiting[i]? = some caller) :
      Moves s (.cancelWaiting i) (leave { s with waiting := s.waiting.eraseIdx i } caller.id)
  | cancelRiding {i : Nat} {ride : Ride} (rides : s.riding[i]? = some ride) :
      Moves s (.cancelRiding i) { s with riding := s.riding.eraseIdx i, gone := ride.caller :: s.gone }
  | dropArrival (runtime : Bool) (drops : s.dropping ≠ 0) : Moves s (.dropArrival runtime)
      { s with
        dropping := s.dropping - 1
        arriving := s.arriving - 1
        sealing := if s.arriving = 1 ∧ runtime then s.sealing + 1 else s.sealing }
  | write {i : Nat} {o : OpenBatch} (report : WriteReport) (lands : s.landing[i]? = some (o, none)) :
      Moves s (.write i report) (s.land i o report)
  | reopen {i : Nat} {o : OpenBatch} {outcome : Outcome} (told : s.landing[i]? = some (o, some outcome)) :
      Moves s (.reopen i) { s with landing := s.landing.eraseIdx i, inFlight := false }
  | sealsNothing (seals : s.sealing ≠ 0) (idle : s.inFlight = true ∨ 0 < s.arriving ∨ s.forming = none) :
      Moves s .sealAbandoned { s with sealing := s.sealing - 1 }
  | dropsEmpty {o : OpenBatch} (seals : s.sealing ≠ 0) (forming : s.forming = some o) (empty : o.batch.writes = []) :
      Moves s .sealAbandoned { s with sealing := s.sealing - 1, forming := none }
  | seals {o : OpenBatch} (seals : s.sealing ≠ 0) (free : s.holder = none) (grounded : s.inFlight = false)
      (forming : s.forming = some o) :
      Moves s .sealAbandoned (launch { s with sealing := s.sealing - 1, forming := none } o)
  | hear {i : Nat} {ride : Ride} {outcome : Outcome} (rides : s.riding[i]? = some ride)
      (hears : s.awaitOutcome ride.channel = some outcome) : Moves s (.hear i)
        { s with riding := s.riding.eraseIdx i, answers := ⟨ride.caller, some ride, ride.answer outcome⟩ :: s.answers }
  | elsewhere (db : DbState) : Moves s (.elsewhere db) { s with db, commits := s.commits + 1 }

variable {changes} {s s' : Coalescer} {event : CoalescerEvent}

theorem moves_of_step (h : s.step changes event = some s') : Moves changes s event s' := by
  cases event with
  | arrive caller =>
    cases h
    exact .arrive caller
  | admission i begins =>
    simp only [step] at h
    split at h
    · cases h
    next caller hwaits =>
    split at h
    · cases h
    next hfree =>
    simp only [not_or, Bool.not_eq_true, Option.isSome_eq_false_iff, Option.isNone_iff_eq_none] at hfree
    cases h
    unfold enter
    split
    next o hforming => exact .joins hwaits hfree.1 hfree.2 hforming
    next hforming =>
    split
    · split
      · exact .refused _ hwaits
      next view hview => exact .opens hwaits hfree.1 hfree.2 hforming hview
    · exact .refused _ hwaits
  | stage =>
    simp only [step] at h
    split at h
    · cases h
    next caller o hholds =>
    split at h
    · cases h
      exact .stageFails _ hholds
    next batch ids hstages =>
    cases h
    unfold dispose
    split
    next hseals => exact .launches hholds hstages hseals.2
    next hseals =>
    split
    next hempty => exact .rollsBack hholds hstages hempty
    next hwrites => exact .forms hholds hstages hwrites fun halone => hseals ⟨.inl halone, hwrites⟩
  | cancelHolder =>
    obtain ⟨⟨caller, o⟩, hholds, rfl⟩ := Option.map_eq_some_iff.mp h
    exact .cancelHolder hholds
  | cancelWaiting i =>
    obtain ⟨caller, hwaits, rfl⟩ := Option.map_eq_some_iff.mp h
    exact .cancelWaiting hwaits
  | cancelRiding i =>
    obtain ⟨ride, hrides, rfl⟩ := Option.map_eq_some_iff.mp h
    exact .cancelRiding hrides
  | dropArrival runtime =>
    simp only [step, Option.ite_none_left_eq_some, Option.some.injEq] at h
    obtain ⟨hdrops, rfl⟩ := h
    exact .dropArrival runtime hdrops
  | write i report =>
    simp only [step] at h
    split at h
    next hlands =>
      cases h
      exact .write report hlands
    · cases h
  | reopen i =>
    simp only [step] at h
    split at h
    next htold =>
      obtain ⟨-, h⟩ := Option.ite_none_left_eq_some.mp h
      cases h
      exact .reopen htold
    · cases h
  | sealAbandoned =>
    simp only [step, Option.ite_none_left_eq_some, not_or, Bool.not_eq_true, Option.isSome_eq_false_iff,
      Option.isNone_iff_eq_none] at h
    obtain ⟨⟨hseals, hfree⟩, h⟩ := h
    cases h
    unfold sealForming
    split
    next hidle => exact .sealsNothing hseals (hidle.imp_right .inl)
    next hidle =>
    split
    next hnone => exact .sealsNothing hseals (.inr (.inr hnone))
    next o hforming =>
    split
    next hempty => exact .dropsEmpty hseals hforming hempty
    next hwrites => exact .seals hseals hfree (by simpa using (not_or.mp hidle).1) hforming
  | hear i =>
    obtain ⟨ride, hrides, h⟩ := Option.bind_eq_some_iff.mp h
    obtain ⟨outcome, hhears, rfl⟩ := Option.map_eq_some_iff.mp h
    exact .hear hrides hhears
  | elsewhere db =>
    cases h
    exact .elsewhere db

/-! ## One batch at a time -/

/-- The callers are counted; a batch forms only while none is in flight and nobody has the lock; what forms is to be
    written. -/
structure Ordered (s : Coalescer) : Prop where
  counted : s.arriving = s.waiting.length + s.dropping + s.holder.toList.length
  flight : s.landing.length = s.inFlight.toNat
  forming : s.forming ≠ none → s.inFlight = false ∧ s.holder = none
  holder : s.holder ≠ none → s.inFlight = false
  written : ∀ o, s.forming = some o → o.batch.writes ≠ []

theorem Ordered.move (h : s.Ordered) (hmove : Moves changes s event s') : s'.Ordered := by
  obtain ⟨hcounted, hflight, hforming, hholder, hwritten⟩ := h
  cases hmove with
  | arrive caller => exact ⟨by simp [hcounted]; omega, hflight, hforming, hholder, hwritten⟩
  | joins hwaits _ _ _ | opens hwaits _ _ _ _ | refused _ hwaits | cancelWaiting hwaits =>
    have hlt := (List.getElem?_eq_some_iff.mp hwaits).1
    constructor <;> grind [fail, leave]
  | launches _ _ _ | rollsBack _ _ _ | forms _ _ _ _ | stageFails _ _ | cancelHolder _ | seals _ _ _ _ =>
    constructor <;> grind [board, launch, fail, leave]
  | dropArrival _ hdrops => exact ⟨by simp [hcounted]; omega, hflight, hforming, hholder, hwritten⟩
  | write _ _ => exact ⟨hcounted, by simp [land, hflight], hforming, hholder, hwritten⟩
  | reopen htold =>
    have hlt := (List.getElem?_eq_some_iff.mp htold).1
    have hone := Bool.toNat_le s.inFlight
    exact ⟨hcounted, by simp [List.length_eraseIdx, hlt]; omega, fun h => ⟨rfl, (hforming h).2⟩, fun _ => rfl, hwritten⟩
  | dropsEmpty _ _ _ => exact ⟨hcounted, hflight, fun h => absurd rfl h, hholder, fun o ho => by cases ho⟩
  | cancelRiding _ | sealsNothing _ _ | hear _ _ | elsewhere _ => exact ⟨hcounted, hflight, hforming, hholder, hwritten⟩

/-- Somebody will seal the forming batch: a counted caller, or a task. -/
def Awaited (s : Coalescer) : Prop := s.forming ≠ none → 0 < s.arriving ∨ 0 < s.sealing

theorem Awaited.move (h : s.Awaited) (hs : s.Ordered) (hmove : Moves changes s event s')
    (hruntime : event ≠ .dropArrival false) : s'.Awaited := by
  cases hmove with
  | arrive caller => exact fun _ => .inl (Nat.succ_pos _)
  | launches hholds _ _ | rollsBack hholds _ _ =>
    exact fun hforming => absurd (hs.forming hforming).2 (by simp [hholds])
  | forms _ _ _ hawaited => exact fun _ => .inl (Nat.pos_of_ne_zero hawaited)
  | dropArrival runtime hdrops =>
    have hcounted := hs.counted
    have hinside : runtime = true := by simpa using hruntime
    intro hforming
    rcases Nat.lt_or_ge 1 s.arriving with hmore | hlast
    · exact .inl (Nat.sub_pos_of_lt hmore)
    · have hone : s.arriving = 1 := by omega
      exact .inr (by simp [hone, hinside])
  | sealsNothing _ hidle =>
    rcases hidle with hflight | harriving | hnone
    · exact fun hforming => absurd hflight (by simp [(hs.forming hforming).1])
    · exact fun _ => .inl harriving
    · exact fun hforming => absurd hnone hforming
  | dropsEmpty _ _ _ | seals _ _ _ _ | joins _ _ _ _ => exact fun hforming => absurd rfl hforming
  | refused _ _ | stageFails _ _ | opens _ _ _ _ _ | cancelHolder _ | cancelWaiting _ | cancelRiding _ | write _ _
  | reopen _ | hear _ _ | elsewhere _ => exact h

/-! ## Every caller is answered -/

/-- What is left to do for the callers and tasks that there are. -/
def work (s : Coalescer) : Nat :=
  5 * s.waiting.length + 4 * s.holder.toList.length + 2 * s.forming.toList.length + 2 * s.dropping + s.sealing +
    s.riding.length + (s.landing.map fun x => if x.2.isNone then 2 else 1).sum

/-- With one task at most, it is the one at the index. -/
theorem Ordered.landing_eq (h : s.Ordered) {i : Nat} {x : OpenBatch × Option Outcome} (hx : s.landing[i]? = some x) :
    i = 0 ∧ s.landing = [x] := by
  have hone := Bool.toNat_le s.inFlight
  rw [← h.flight] at hone
  obtain ⟨hlt, rfl⟩ := List.getElem?_eq_some_iff.mp hx
  obtain rfl : i = 0 := by omega
  obtain ⟨y, hy⟩ := List.length_eq_one_iff.mp (show s.landing.length = 1 by omega)
  simp [hy]

/-- Every event but a new caller's or another writer's leaves less to do. -/
theorem Ordered.work_lt (h : s.Ordered) (hmove : Moves changes s event s') (hinternal : event.isInternal) :
    s'.work < s.work := by
  cases hmove with
  | arrive caller => cases hinternal
  | elsewhere db => cases hinternal
  | joins hwaits hfree _ hforming | opens hwaits hfree _ hforming _ =>
    have hlt := (List.getElem?_eq_some_iff.mp hwaits).1
    simp [work, List.length_eraseIdx, hlt, hfree, hforming]
    omega
  | refused _ hwaits | cancelWaiting hwaits =>
    have hlt := (List.getElem?_eq_some_iff.mp hwaits).1
    simp [work, fail, leave, List.length_eraseIdx, hlt]
    omega
  | launches hholds _ _ | rollsBack hholds _ _ | forms hholds _ _ _ =>
    simp only [work, board, launch, hholds, Option.toList_some, Option.toList_none, List.length_cons, List.length_nil,
      List.map_cons, List.sum_cons, Option.isNone_none, if_true]
    split <;> simp <;> omega
  | stageFails _ hholds | cancelHolder hholds =>
    simp [work, fail, leave, hholds]
    omega
  | cancelRiding hrides | hear hrides _ =>
    have hlt := (List.getElem?_eq_some_iff.mp hrides).1
    simp [work, List.length_eraseIdx, hlt]
    omega
  | dropArrival _ hdrops =>
    simp only [work]
    split <;> omega
  | write _ hlands =>
    obtain ⟨rfl, hlanding⟩ := h.landing_eq hlands
    simp [work, land, hlanding]
  | reopen htold =>
    obtain ⟨rfl, hlanding⟩ := h.landing_eq htold
    simp [work, hlanding]
  | sealsNothing hseals _ =>
    simp only [work]
    omega
  | dropsEmpty hseals hforming _ | seals hseals _ _ hforming =>
    simp [work, launch, hforming]
    omega

/-- Where no caller and no task can go on, none is left. -/
theorem Ordered.idle_of_stuck (h : s.Ordered) (hawaited : s.Awaited)
    (hstuck : ∀ event : CoalescerEvent, event.isInternal → s.step changes event = none) :
    s.waiting = [] ∧ s.holder = none ∧ s.forming = none ∧ s.landing = [] ∧ s.dropping = 0 ∧ s.riding = [] := by
  have hholder : s.holder = none := by
    cases hholds : s.holder with
    | none => rfl
    | some x =>
      have hstage := hstuck .stage rfl
      simp only [step, hholds] at hstage
      split at hstage <;> cases hstage
  have hlanding : s.landing = [] := by
    cases hlands : s.landing with
    | nil => rfl
    | cons x rest =>
      obtain ⟨o, _ | outcome⟩ := x
      · simpa [step, hlands] using hstuck (.write 0 .settles) rfl
      · simpa [step, hlands, hholder] using hstuck (.reopen 0) rfl
  have hgrounded : s.inFlight = false := by
    have hflight := h.flight
    rw [hlanding] at hflight
    cases hin : s.inFlight with
    | false => rfl
    | true => simp [hin] at hflight
  have hdropping : s.dropping = 0 := by simpa [step] using hstuck (.dropArrival true) rfl
  have hwaiting : s.waiting = [] := by
    cases hwaits : s.waiting with
    | nil => rfl
    | cons caller rest => simpa [step, hwaits, hholder, hgrounded] using hstuck (.admission 0 true) rfl
  have hforming : s.forming = none := by
    by_contra hforming
    have hsealing : s.sealing = 0 := by simpa [step, hholder] using hstuck .sealAbandoned rfl
    have hcounted := h.counted
    simp only [hwaiting, hdropping, hholder, Option.toList_none, List.length_nil] at hcounted
    rcases hawaited hforming with harriving | hseals <;> omega
  refine ⟨hwaiting, hholder, hforming, hlanding, hdropping, ?_⟩
  cases hrides : s.riding with
  | nil => rfl
  | cons ride rest =>
    have hhear := hstuck (.hear 0) rfl
    simp only [step, hrides, List.getElem?_cons_zero, Option.bind_some, Option.map_eq_none_iff, awaitOutcome] at hhear
    split at hhear
    · cases hhear
    · simp [openBatches, hforming, hholder, hlanding] at hhear

/-- Every arrival of a caller is answered, has gone away, or is still on its way, and only one of these. -/
def Accounted (s : Coalescer) : Prop :=
  ∀ c, s.arrivals.count c = (s.answers.map Answer.caller).count c + s.gone.count c +
    (s.waiting.map Caller.id).count c + (s.holder.toList.map (·.1.id)).count c + (s.riding.map Ride.caller).count c

theorem count_map_eraseIdx {α : Type} (f : α → Nat) {l : List α} {i : Nat} {a : α} (h : l[i]? = some a) (c : Nat) :
    (l.map f).count c = ((l.eraseIdx i).map f).count c + if f a = c then 1 else 0 := by
  obtain ⟨hlt, rfl⟩ := List.getElem?_eq_some_iff.mp h
  rw [← ((List.getElem_cons_eraseIdx_perm hlt).map f).count_eq c, List.map_cons, List.count_cons]
  simp

theorem Accounted.move (h : s.Accounted) (hmove : Moves changes s event s') : s'.Accounted := by
  intro c
  have hc := h c
  cases hmove with
  | arrive caller =>
    simp only [List.map_cons, List.count_cons]
    omega
  | joins hwaits hfree _ _ | opens hwaits hfree _ _ _ =>
    rw [count_map_eraseIdx Caller.id hwaits c, hfree] at hc
    simp only [Option.toList_none, Option.toList_some, List.map_cons, List.map_nil, List.count_cons, List.count_nil,
      beq_iff_eq] at hc ⊢
    omega
  | refused _ hwaits | cancelWaiting hwaits =>
    rw [count_map_eraseIdx Caller.id hwaits c] at hc
    simp only [fail, leave, List.map_cons, List.count_cons, beq_iff_eq]
    omega
  | launches hholds _ _ | rollsBack hholds _ _ | forms hholds _ _ _ =>
    rw [hholds] at hc
    simp only [Option.toList_some, List.map_cons, List.map_nil, List.count_cons, List.count_nil, beq_iff_eq] at hc
    simp only [board, launch, Option.toList_none, List.map_nil, List.count_nil]
    split <;> simp only [List.map_cons, List.count_cons, beq_iff_eq] <;> omega
  | stageFails _ hholds | cancelHolder hholds =>
    rw [hholds] at hc
    simp only [Option.toList_some, List.map_cons, List.map_nil, List.count_cons, List.count_nil, beq_iff_eq] at hc
    simp only [fail, leave, List.map_cons, List.count_cons, beq_iff_eq, Option.toList_none, List.map_nil,
      List.count_nil]
    omega
  | cancelRiding hrides | hear hrides _ =>
    rw [count_map_eraseIdx Ride.caller hrides c] at hc
    simp only [List.map_cons, List.count_cons, beq_iff_eq]
    omega
  | dropArrival _ _ | write _ _ | reopen _ | sealsNothing _ _ | dropsEmpty _ _ _ | seals _ _ _ _ | elsewhere _ =>
    exact hc

/-! ## Every answer is true -/

/-- The batch has the caller's writes where it staged them, and the snapshots it was given. -/
structure Carries (o : OpenBatch) (ride : Ride) : Prop where
  writes : ride.upto <+: o.batch.writes
  ids : ∀ id ∈ ride.ids, o.batch.db.catalog.snapshots[id]?.isSome

/-- The batch is one that closures were staged onto. -/
structure Sound (o : OpenBatch) : Prop where
  keyed : o.batch.db.catalog.SnapshotsKeyed
  coherent : ∃ db, o.batch.Coherent db

/-- The second batch is the first with more staged onto it. -/
structure Extends (o o' : OpenBatch) : Prop where
  channel : o'.channel = o.channel
  carries : ∀ ride, Carries o ride → Carries o' ride
  sound : Sound o'

theorem snapshotsKeyed_stage {b b' : Batch} {rs : List Request} {ids : List Nat} (hb : b.db.catalog.SnapshotsKeyed)
    (h : b.stage changes rs = .ok (b', ids)) : b'.db.catalog.SnapshotsKeyed := by
  induction rs generalizing b ids with
  | nil =>
    cases h
    exact hb
  | cons r rs ih =>
    rw [Batch.stage] at h
    cases hmember : b.stageMember changes r with
    | error e => rw [hmember] at h; cases h
    | ok x =>
      rw [hmember] at h
      obtain ⟨⟨b₂, ids'⟩, hrest, heq⟩ := Results.map_eq_ok.mp h
      obtain ⟨rfl, -⟩ := Prod.mk.inj heq
      refine ih ?_ hrest
      obtain ⟨b₁, tx, hb₁, -, hjoined⟩ := Batch.stageMember_joined hmember
      rw [← (Batch.refold_eq hb₁).1] at hb
      cases hjoined with
      | nothing _ hdb _ => rwa [hdb]
      | options _ hcatalog _ _ =>
        rw [hcatalog]
        exact hb.commit fun w hw => StagedWrite.isCatalog_of_isEntity (diffOptions_entity _ _ w hw)
      | minted _ _ _ _ _ _ hcatalog _ _ =>
        rw [hcatalog]
        exact hb.commit fun w hw => StagedWrite.isCatalog_of_isEntity (mintingMember_entity _ _ _ _ w hw)

theorem extends_of_stage {o : OpenBatch} {rs : List Request} {batch : Batch} {ids : List Nat} (ho : Sound o)
    (h : o.batch.stage changes rs = .ok (batch, ids)) :
    Extends o { o with batch } ∧ ∀ id ∈ ids, batch.db.catalog.snapshots[id]?.isSome := by
  obtain ⟨db, hcoherent⟩ := ho.coherent
  obtain ⟨hcoherent', hids, hkeeps, hgrows⟩ := (hcoherent.stage rs).2 batch ids h
  refine ⟨⟨rfl, fun ride hride => ?_, snapshotsKeyed_stage ho.keyed h, db, hcoherent'⟩, hids⟩
  exact ⟨hride.writes.trans hgrows, fun id hid => hkeeps id (hride.ids id hid)⟩

/-- Only batches that carry the caller have its channel. -/
def Carried (s : Coalescer) (ride : Ride) : Prop :=
  ride.channel < s.nextChannel ∧ ∀ o ∈ s.openBatches ++ s.landed, o.channel = ride.channel → Carries o ride

/-- The answer is what was told on the ride's channel, or its batch is gone and nothing was told. -/
def Told (s : Coalescer) (ride : Ride) (outcome : CommitOutcome) : Prop :=
  (∃ told, s.told ride.channel = some told ∧ outcome = ride.answer told) ∨
    outcome = .nothing ∧ s.told ride.channel = none ∧ ∀ o ∈ s.openBatches, o.channel ≠ ride.channel

structure Truthful (s : Coalescer) : Prop where
  keyed : s.db.catalog.SnapshotsKeyed
  opened : ∀ o ∈ s.openBatches, Sound o ∧ o.channel < s.nextChannel ∧ s.told o.channel = none
  told : ∀ c, (s.told c).isSome → c < s.nextChannel
  committed : ∀ c, s.told c = some .committed → ∃ o ∈ s.landed, o.channel = c
  landed : ∀ o ∈ s.landed, s.told o.channel = some .committed ∨ s.told o.channel = some .nothing
  once : (s.landed.map OpenBatch.channel).Nodup
  rides : ∀ ride ∈ s.riding, s.Carried ride
  answers : ∀ a ∈ s.answers, ∀ ride, a.ride = some ride → s.Carried ride ∧ s.Told ride a.outcome

/-- Nothing is told, and a batch that is there continues one or has a new channel. -/
theorem Truthful.mono (h : s.Truthful) (hkeyed : s'.db.catalog.SnapshotsKeyed)
    (hopen : ∀ o' ∈ s'.openBatches, (∃ o ∈ s.openBatches, Extends o o') ∨
      s.nextChannel ≤ o'.channel ∧ o'.channel < s'.nextChannel ∧ Sound o')
    (htold : s'.told = s.told) (hlanded : s'.landed = s.landed) (hnext : s.nextChannel ≤ s'.nextChannel)
    (hriding : s'.riding ⊆ s.riding) (hanswers : ∀ a ∈ s'.answers, a ∈ s.answers ∨ a.ride = none) : s'.Truthful := by
  have hcarried : ∀ ride, s.Carried ride → s'.Carried ride := by
    rintro ride ⟨hlt, hcarries⟩
    refine ⟨hlt.trans_le hnext, fun o' ho' heq => ?_⟩
    rcases List.mem_append.mp ho' with ho' | ho'
    · rcases hopen o' ho' with ⟨o, ho, hext⟩ | ⟨hnew, -⟩
      · exact hext.carries ride (hcarries o (List.mem_append_left _ ho) (hext.channel.symm.trans heq))
      · omega
    · exact hcarries o' (List.mem_append_right _ (hlanded ▸ ho')) heq
  refine ⟨hkeyed, fun o' ho' => ?_, fun c hc => (h.told c (htold ▸ hc)).trans_le hnext, by
    rw [htold, hlanded]; exact h.committed, by rw [htold, hlanded]; exact h.landed, hlanded ▸ h.once,
    fun r hr => hcarried r (h.rides r (hriding hr)), fun a ha ride hride => ?_⟩
  · rw [htold]
    rcases hopen o' ho' with ⟨o, ho, hext⟩ | ⟨hnew, hlt, hsound⟩
    · rw [hext.channel]
      exact ⟨hext.sound, (h.opened o ho).2.1.trans_le hnext, (h.opened o ho).2.2⟩
    · refine ⟨hsound, hlt, Option.not_isSome_iff_eq_none.mp fun hsome => ?_⟩
      exact absurd (h.told _ hsome) (Nat.not_lt.mpr hnew)
  · rcases hanswers a ha with ha | hnone
    · obtain ⟨hcarries, htells⟩ := h.answers a ha ride hride
      refine ⟨hcarried ride hcarries, ?_⟩
      rw [Told, htold]
      refine htells.imp_right fun ⟨heq, hnone, hgone⟩ => ⟨heq, hnone, fun o' ho' => ?_⟩
      rcases hopen o' ho' with ⟨o, ho, hext⟩ | ⟨hnew, -⟩
      · exact hext.channel ▸ hgone o ho
      · exact (hcarries.1.trans_le hnew).ne'
    · rw [hnone] at hride
      cases hride

/-- A batch of which it is told that it committed has reached the store, and one that reaches it is not told to have
    lost. -/
theorem written_of_reaches (s : Coalescer) (o : OpenBatch) (report : WriteReport) :
    (s.written o report = .committed → s.reaches o report) ∧
      (s.reaches o report → s.written o report = .committed ∨ s.written o report = .nothing) := by
  cases report <;> simp [written, reaches]
  split <;> simp_all

theorem Ordered.openBatches_eq (h : s.Ordered) :
    (∀ caller o, s.holder = some (caller, o) → s.openBatches = [o] ∧ s.landing = []) ∧
    (s.holder = none → s.inFlight = false → s.openBatches = s.forming.toList ∧ s.landing = []) ∧
    ∀ (i : Nat) x, s.landing[i]? = some x → s.forming = none ∧ s.holder = none := by
  have hempty : s.inFlight = false → s.landing = [] := fun hgrounded => by
    have hflight := h.flight
    rwa [hgrounded, Bool.toNat_false, List.length_eq_zero_iff] at hflight
  refine ⟨fun caller o hholds => ?_, fun hnone hgrounded => ?_, fun i x hx => ?_⟩
  · have hlanding := hempty (h.holder (by simp [hholds]))
    have hforming : s.forming = none := by
      by_contra hforming
      simpa [hholds] using (h.forming hforming).2
    simp [openBatches, hholds, hforming, hlanding]
  · simp [openBatches, hnone, hempty hgrounded]
  · have hflying : s.inFlight ≠ false := fun hgrounded => by simp [hempty hgrounded] at hx
    exact ⟨not_not.mp fun hforming => hflying (h.forming hforming).1, not_not.mp fun hheld => hflying (h.holder hheld)⟩

/-- A caller has staged onto the batch it held and boards it, where the batch is not rolled back. -/
theorem Truthful.staged (h : s.Truthful) {caller : Caller} {o : OpenBatch} {batch : Batch} {ids : List Nat}
    {before : Nat} (hholds : s.holder = some (caller, o))
    (hstages : o.batch.stage changes caller.members = .ok (batch, ids)) (hdb : s'.db = s.db)
    (hopen : ∀ o' ∈ s'.openBatches, o' = { o with batch }) (htold : s'.told = s.told) (hlanded : s'.landed = s.landed)
    (hnext : s'.nextChannel = s.nextChannel) (hriding : s'.riding = s.riding) (hanswers : s'.answers = s.answers) :
    (s'.board caller.id ids before { o with batch }).Truthful := by
  have hmem : o ∈ s.openBatches := by simp [openBatches, hholds]
  obtain ⟨hsound, hlt, huntold⟩ := h.opened o hmem
  obtain ⟨hext, hids⟩ := extends_of_stage hsound hstages
  have hgrown : s'.Truthful := h.mono (hdb ▸ h.keyed) (fun o' ho' => .inl ⟨o, hmem, hopen o' ho' ▸ hext⟩) htold hlanded
    hnext.ge (hriding ▸ List.Subset.refl _) fun a ha => .inl (hanswers ▸ ha)
  refine ⟨hgrown.keyed, hgrown.opened, hgrown.told, hgrown.committed, hgrown.landed, hgrown.once, fun ride hride => ?_,
    fun a ha ride hride => ?_⟩
  · simp only [board] at hride
    split at hride
    · rcases List.mem_cons.mp hride with rfl | hride
      · refine ⟨hnext ▸ hlt, fun o' ho' heq => ?_⟩
        rcases List.mem_append.mp ho' with ho' | ho'
        · rw [hopen o' ho']
          exact ⟨List.prefix_rfl, hids⟩
        · have heq : o'.channel = o.channel := heq
          simpa [heq, huntold] using h.landed o' (hlanded ▸ ho')
      · exact hgrown.rides ride hride
    · exact hgrown.rides ride hride
  · simp only [board] at ha
    split at ha
    · exact hgrown.answers a ha ride hride
    · rcases List.mem_cons.mp ha with rfl | ha
      · cases hride
      · exact hgrown.answers a ha ride hride

theorem sound_opened {db : DbState} (hdb : db.catalog.SnapshotsKeyed) {view : CatalogSnapshot}
    (hshows : db.catalog.materialize = .ok view) (begun channel : Nat) : Sound ⟨.opened db view, begun, channel⟩ := by
  obtain ⟨-, snapshot, hsnapshot, rfl⟩ := Store.of_materialize hshows
  have hhead : (db.catalog.viewAt snapshot).viewHead = db.catalog.head := by
    rw [CatalogSnapshot.viewHead, Store.viewAt_snapshot, Store.viewAt_batchSeq, hdb _ _ hsnapshot]
  exact ⟨hdb, db, Batch.coherent_opened hhead (by rw [hsnapshot]; rfl)⟩

theorem Truthful.land (h : s.Truthful) (hs : s.Ordered) {i : Nat} {o : OpenBatch} (report : WriteReport)
    (hlands : s.landing[i]? = some (o, none)) : (s.land i o report).Truthful := by
  obtain ⟨rfl, hlanding⟩ := hs.landing_eq hlands
  obtain ⟨hforming, hholder⟩ := hs.openBatches_eq.2.2 0 _ hlands
  have hmem : o ∈ s.openBatches := by simp [openBatches, hlanding]
  obtain ⟨hsound, hlt, huntold⟩ := h.opened o hmem
  obtain ⟨hcommitted, hreaches⟩ := s.written_of_reaches o report
  have hopen : (s.land 0 o report).openBatches = [] := by
    simp [openBatches, Coalescer.land, hlanding, hforming, hholder]
  have hlanded : ∀ o' ∈ (s.land 0 o report).landed, o' = o ∧ s.reaches o report ∨ o' ∈ s.landed := by
    intro o' ho'
    simp only [Coalescer.land] at ho'
    split at ho'
    next hr => exact (List.mem_cons.mp ho').imp_left fun heq => ⟨heq, hr⟩
    · exact .inr ho'
  have hother : ∀ o' ∈ s.landed, o'.channel ≠ o.channel := fun o' ho' heq => by
    simpa [heq, huntold] using h.landed o' ho'
  have hcarried : ∀ ride, s.Carried ride → (s.land 0 o report).Carried ride := fun ride hride => by
    refine ⟨hride.1, fun o' ho' => hride.2 o' ?_⟩
    rw [hopen, List.nil_append] at ho'
    rcases hlanded o' ho' with ⟨rfl, -⟩ | ho'
    · exact List.mem_append_left _ hmem
    · exact List.mem_append_right _ ho'
  have htold : ∀ c outcome, (s.land 0 o report).told c = some outcome →
      c = o.channel ∧ s.written o report = outcome ∨ s.told c = some outcome := by
    intro c outcome hc
    by_cases heq : c = o.channel
    · subst heq
      exact .inl ⟨rfl, Option.some.inj (by simpa [Coalescer.land] using hc)⟩
    · exact .inr (by simpa [Coalescer.land, heq] using hc)
  refine ⟨?_, by simp [hopen], fun c hc => ?_, fun c hc => ?_, fun o' ho' => ?_, ?_,
    fun ride hride => hcarried ride (h.rides ride hride), fun a ha ride hride => ?_⟩
  · simp only [Coalescer.land]
    split
    · exact hsound.keyed
    · exact h.keyed
  · obtain ⟨outcome, houtcome⟩ := Option.isSome_iff_exists.mp hc
    rcases htold c outcome houtcome with ⟨rfl, -⟩ | hold
    · exact hlt
    · exact h.told c (by rw [hold]; rfl)
  · rcases htold c _ hc with ⟨rfl, hwritten⟩ | hold
    · exact ⟨o, by simp [Coalescer.land, hcommitted hwritten], rfl⟩
    · obtain ⟨o', ho', hchannel⟩ := h.committed c hold
      exact ⟨o', by simp only [Coalescer.land]; split <;> simp [ho'], hchannel⟩
  · rcases hlanded o' ho' with ⟨rfl, hr⟩ | ho'
    · simpa [Coalescer.land] using hreaches hr
    · simpa [Coalescer.land, hother o' ho'] using h.landed o' ho'
  · simp only [Coalescer.land]
    split
    · exact List.nodup_cons.mpr ⟨fun hin => (List.mem_map.mp hin).elim fun o' ho' => hother o' ho'.1 ho'.2, h.once⟩
    · exact h.once
  · obtain ⟨hcarries, htells⟩ := h.answers a ha ride hride
    refine ⟨hcarried ride hcarries, ?_⟩
    have hne : ride.channel ≠ o.channel := by
      rcases htells with ⟨outcome, htells, -⟩ | ⟨-, -, hgone⟩
      · intro heq
        rw [heq, huntold] at htells
        cases htells
      · exact (hgone o hmem).symm
    have hsame : (s.land 0 o report).told ride.channel = s.told ride.channel := Function.update_of_ne hne _ _
    rw [Told, hsame, hopen]
    exact htells.imp_right fun ⟨heq, hnone, _⟩ => ⟨heq, hnone, by simp⟩

theorem Truthful.move (h : s.Truthful) (hs : s.Ordered) (hmove : Moves changes s event s')
    (hforeign : ∀ db, event = .elsewhere db → db.catalog.SnapshotsKeyed) : s'.Truthful := by
  have hfewer : ∀ {s' : Coalescer}, s'.db.catalog.SnapshotsKeyed → s'.openBatches ⊆ s.openBatches → s'.told = s.told →
      s'.landed = s.landed → s.nextChannel ≤ s'.nextChannel → s'.riding ⊆ s.riding →
      (∀ a ∈ s'.answers, a ∈ s.answers ∨ a.ride = none) → s'.Truthful := fun hkeyed hopen =>
    h.mono hkeyed fun o ho => .inl ⟨o, hopen ho, rfl, fun _ h => h, (h.opened o (hopen ho)).1⟩
  have hdropped : openBatches { s with holder := none } ⊆ s.openBatches := by
    simp [openBatches]
  cases hmove with
  | arrive _ | cancelWaiting _ | dropArrival _ _ | sealsNothing _ _ =>
    exact hfewer h.keyed (fun _ ho => ho) rfl rfl le_rfl (fun _ h => h) fun _ ha => .inl ha
  | joins _ hfree _ hforming =>
    refine hfewer h.keyed (fun o ho => ?_) rfl rfl le_rfl (fun _ h => h) fun _ ha => .inl ha
    simpa [openBatches, hforming, hfree] using ho
  | opens _ hfree hgrounded hnone hshows =>
    obtain ⟨-, hlanding⟩ := hs.openBatches_eq.2.1 hfree hgrounded
    refine h.mono h.keyed (fun o ho => .inr ?_) rfl rfl (Nat.le_succ _) (fun _ h => h) fun _ ha => .inl ha
    obtain rfl : o = ⟨.opened s.db _, s.commits, s.nextChannel⟩ := by simpa [openBatches, hnone, hlanding] using ho
    exact ⟨le_rfl, Nat.lt_succ_self _, sound_opened h.keyed hshows _ _⟩
  | refused _ _ =>
    exact hfewer h.keyed (fun _ ho => ho) rfl rfl le_rfl (fun _ h => h) fun a ha =>
      (List.mem_cons.mp ha).symm.imp_right fun heq => by rw [heq]
  | launches hholds hstages _ | rollsBack hholds hstages _ | forms hholds hstages _ _ =>
    obtain ⟨hopen, hlanding⟩ := hs.openBatches_eq.1 _ _ hholds
    have hforming : s.forming = none := by
      by_contra hforming
      simpa [hholds] using (hs.forming hforming).2
    refine h.staged hholds hstages rfl (fun o' ho' => ?_) rfl rfl rfl rfl rfl
    simp_all [openBatches, launch]
  | stageFails _ _ =>
    exact hfewer h.keyed hdropped rfl rfl le_rfl (fun _ h => h) fun a ha =>
      (List.mem_cons.mp ha).symm.imp_right fun heq => by rw [heq]
  | cancelHolder _ => exact hfewer h.keyed hdropped rfl rfl le_rfl (fun _ h => h) fun _ ha => .inl ha
  | cancelRiding _ => exact hfewer h.keyed (fun _ ho => ho) rfl rfl le_rfl List.eraseIdx_subset fun _ ha => .inl ha
  | write report hlands => exact h.land hs report hlands
  | reopen htold =>
    obtain ⟨rfl, hlanding⟩ := hs.landing_eq htold
    refine hfewer h.keyed (fun o ho => ?_) rfl rfl le_rfl (fun _ h => h) fun _ ha => .inl ha
    simpa [openBatches, hlanding] using ho
  | dropsEmpty _ _ _ =>
    refine hfewer h.keyed (fun o ho => ?_) rfl rfl le_rfl (fun _ h => h) fun _ ha => .inl ha
    exact List.mem_append.mpr ((List.mem_append.mp ho).imp_left fun ho => List.mem_append_right _ (by simpa using ho))
  | seals _ hfree hgrounded hforming =>
    obtain ⟨hopen, hlanding⟩ := hs.openBatches_eq.2.1 hfree hgrounded
    refine hfewer h.keyed (fun o ho => ?_) rfl rfl le_rfl (fun _ h => h) fun _ ha => .inl ha
    simpa [openBatches, launch, hlanding, hfree, hforming] using ho
  | hear hrides hhears =>
    have hride := List.mem_of_getElem? hrides
    refine ⟨h.keyed, h.opened, h.told, h.committed, h.landed, h.once,
      fun r hr => h.rides r (List.mem_of_mem_eraseIdx hr), fun a ha r hr => ?_⟩
    rcases List.mem_cons.mp ha with rfl | ha
    · cases hr
      refine ⟨h.rides _ hride, ?_⟩
      unfold awaitOutcome at hhears
      split at hhears
      next htold =>
        cases hhears
        exact .inl ⟨_, htold, rfl⟩
      next htold =>
        obtain ⟨hgone, houtcome⟩ := Option.ite_none_left_eq_some.mp hhears
        cases houtcome
        refine .inr ⟨rfl, htold, fun o ho heq => hgone ?_⟩
        exact List.any_eq_true.mpr ⟨o, ho, beq_iff_eq.mpr heq⟩
    · exact h.answers a ha r hr
  | elsewhere db => exact hfewer (hforeign db rfl) (fun _ ho => ho) rfl rfl le_rfl (fun _ h => h) fun _ ha => .inl ha

/-! ## Runs -/

section Runs

variable {db : DbState} {events : List CoalescerEvent}

theorem ordered_start (db : DbState) : Ordered { db } :=
  ⟨rfl, rfl, fun h => absurd rfl h, fun h => absurd rfl h, fun o ho => by cases ho⟩

/-- What every event keeps that meets `q` holds at the end of every run of such events. -/
theorem keeps_run {P : Coalescer → Prop} {q : CoalescerEvent → Prop}
    (hmove : ∀ {s event s'}, P s → s.Ordered → Moves changes s event s' → q event → P s') (hstart : P { db })
    (hq : ∀ event ∈ events, q event) (hrun : Runs.run (step changes) { db } events = some s) : s.Ordered ∧ P s := by
  refine Runs.Always.run (p := fun s => s.Ordered ∧ P s) ?_ hrun
  refine Runs.always_of_throughout (q := fun _ event => q event) ?_ ⟨ordered_start db, hstart⟩ ?_
  · exact fun h hevent hstep => ⟨h.1.move (moves_of_step hstep), hmove h.2 h.1 (moves_of_step hstep) hevent⟩
  · exact Runs.throughout_of_getElem? fun i event _ hevent _ => hq event (List.mem_of_getElem? hevent)

/-- With no new callers, a run takes no more steps of its own than there is work, however often others commit. -/
theorem Ordered.length_le_work (h : s.Ordered) {events : List CoalescerEvent}
    (hcallers : ∀ event ∈ events, ∀ caller, event ≠ .arrive caller)
    (hrun : Runs.run (step changes) s events = some s') :
    (events.filter CoalescerEvent.isInternal).length + s'.work ≤ s.work := by
  induction events generalizing s with
  | nil =>
    cases hrun
    simp
  | cons event events ih =>
    obtain ⟨s₁, hstep, hrest⟩ := Option.bind_eq_some_iff.mp hrun
    have hmove := moves_of_step hstep
    have hle := ih (h.move hmove) (fun e he => hcallers e (List.mem_cons_of_mem _ he)) hrest
    by_cases hinternal : event.isInternal
    · have hless := h.work_lt hmove hinternal
      rw [List.filter_cons_of_pos hinternal, List.length_cons]
      omega
    · rw [List.filter_cons_of_neg hinternal]
      cases hmove with
      | arrive caller => exact absurd rfl (hcallers _ List.mem_cons_self caller)
      | elsewhere db => exact hle
      | _ => exact absurd rfl hinternal

end Runs

private def pairStart : DbState := { catalog := .bootstrap 0 "" false none }

/-- Two callers make a schema each, in one batch. -/
private def pairEvents : List CoalescerEvent :=
  [.arrive ⟨1, [⟨1, discard (Transaction.createSchema "a" "")⟩]⟩,
   .arrive ⟨2, [⟨1, discard (Transaction.createSchema "b" "")⟩]⟩,
   .admission 1 true, .stage, .admission 0 true, .stage, .write 0 .settles, .reopen 0, .hear 0, .hear 0]

private def pair : Option Coalescer := Runs.run (step fun _ => ("", [])) { db := pairStart } pairEvents

private theorem pair_facts : pair.map (fun s => (s.answers.map fun a => (a.caller, a.ride.map (·.channel)),
    s.answers.all fun a => a.outcome matches .committed _)) =
      some ([(1, some 0), (2, some 0)], true) := by decide +kernel

/-- No caller is stranded. In every interleaving at most one batch is written at a time, none forms meanwhile, and a
    batch that forms has writes and is awaited by a counted caller or a task. Every arrival has exactly one fate. With
    no new callers the rest of a run takes boundedly many steps of its own, however often other writers commit, and
    where it cannot go on every arrival has been answered or has gone away. -/
theorem no_caller_stranded (changes : List Operation → String × List Nat) (db : DbState) (events : List CoalescerEvent)
    (s : Coalescer) (hrun : Runs.run (step changes) { db } events = some s)
    (hruntime : ∀ event ∈ events, event ≠ .dropArrival false) :
    s.landing.length ≤ 1 ∧ (s.landing ≠ [] → s.forming = none ∧ s.holder = none) ∧
    (∀ o, s.forming = some o → o.batch.writes ≠ [] ∧ (0 < s.waiting.length + s.dropping ∨ 0 < s.sealing)) ∧
    s.Accounted ∧
    (∀ rest s', (∀ event ∈ rest, ∀ caller, event ≠ .arrive caller) → Runs.run (step changes) s rest = some s' →
      (rest.filter CoalescerEvent.isInternal).length ≤ s.work) ∧
    ((∀ event : CoalescerEvent, event.isInternal → s.step changes event = none) →
      ∀ c, s.arrivals.count c = (s.answers.map Answer.caller).count c + s.gone.count c) := by
  obtain ⟨hordered, haccounted⟩ := keeps_run (P := Accounted) (q := fun _ => True) (fun h _ hmove _ => h.move hmove)
    (fun c => rfl) (fun _ _ => trivial) hrun
  have hawaited := (keeps_run Awaited.move (fun h => absurd rfl h) hruntime hrun).2
  refine ⟨?_, fun hlanding => ?_, fun o ho => ⟨hordered.written o ho, ?_⟩, haccounted,
    fun rest s' hcallers hrest => ?_, fun hstuck c => ?_⟩
  · rw [hordered.flight]
    exact Bool.toNat_le _
  · obtain ⟨x, rest, hx⟩ := List.exists_cons_of_ne_nil hlanding
    exact hordered.openBatches_eq.2.2 0 x (by rw [hx]; rfl)
  · have hforming : s.forming ≠ none := by simp [ho]
    have hcounted := hordered.counted
    rw [(hordered.forming hforming).2, Option.toList_none, List.length_nil, Nat.add_zero] at hcounted
    exact hcounted ▸ hawaited hforming
  · have hbound := hordered.length_le_work hcallers hrest
    omega
  · obtain ⟨hwaiting, hholder, -, -, -, hriding⟩ := hordered.idle_of_stuck hawaited hstuck
    have hc := haccounted c
    simpa [hwaiting, hholder, hriding] using hc

theorem pair_not_stranded : ∃ s, pair = some s ∧ s.answers.map Answer.caller = [1, 2] ∧ s.landing.length ≤ 1 ∧
    s.Accounted := by
  obtain ⟨s, hrun, hfacts⟩ := Option.map_eq_some_iff.mp pair_facts
  obtain ⟨hone, -, -, haccounted, -⟩ := no_caller_stranded (fun _ => ("", [])) pairStart pairEvents s hrun
    (by simp [pairEvents])
  refine ⟨s, hrun, ?_, hone, haccounted⟩
  simpa [Function.comp_def] using congrArg (fun x => x.1.map Prod.fst) hfacts

/-- What a caller is told of the batch it put something into is true. If it is told that the batch committed, the
    batch has reached the store, with the caller's writes where it staged them and a record of every snapshot id it
    was given. If it is told that the batch lost its race, the batch has not reached the store. If it is told of
    nothing, the batch has not, unless its write reported an error. No batch reaches the store twice. -/
theorem riders_told_true (changes : List Operation → String × List Nat) (db : DbState) (events : List CoalescerEvent)
    (s : Coalescer) (hdb : db.catalog.SnapshotsKeyed) (hrun : Runs.run (step changes) { db } events = some s)
    (hforeign : ∀ db', .elsewhere db' ∈ events → db'.catalog.SnapshotsKeyed) :
    (s.landed.map OpenBatch.channel).Nodup ∧
    ∀ a ∈ s.answers, ∀ ride, a.ride = some ride →
      (∀ ids, a.outcome = .committed ids → ids = ride.ids ∧ ∃ o ∈ s.landed, o.channel = ride.channel ∧ Carries o ride) ∧
      (∀ head, a.outcome = .lostRace head → ∀ o ∈ s.landed, o.channel ≠ ride.channel) ∧
      (a.outcome = .nothing → s.told ride.channel = some .nothing ∨ ∀ o ∈ s.landed, o.channel ≠ ride.channel) := by
  have htruthful : s.Truthful := by
    refine (keeps_run Truthful.move ?_ (fun event hevent db' heq => hforeign db' (heq ▸ hevent)) hrun).2
    refine ⟨hdb, ?_, ?_, ?_, ?_, ?_, ?_, ?_⟩ <;> simp [openBatches]
  refine ⟨htruthful.once, fun a ha ride hride => ?_⟩
  obtain ⟨⟨-, hcarries⟩, htells⟩ := htruthful.answers a ha ride hride
  have huntold : ∀ o ∈ s.landed, o.channel = ride.channel → s.told ride.channel = some .committed ∨
      s.told ride.channel = some .nothing := fun o ho heq => heq ▸ htruthful.landed o ho
  rcases htells with ⟨told, htold, hanswer⟩ | ⟨hanswer, htold, -⟩ <;> rw [hanswer]
  · cases told with
    | committed =>
      obtain ⟨o, ho, hchannel⟩ := htruthful.committed _ htold
      refine ⟨fun ids hids => ?_, nofun, nofun⟩
      cases hids
      exact ⟨rfl, o, ho, hchannel, hcarries o (List.mem_append_right _ ho) hchannel⟩
    | lostRace => exact ⟨nofun, fun _ _ o ho heq => by simpa [htold] using huntold o ho heq, nofun⟩
    | nothing => exact ⟨nofun, nofun, fun _ => .inl htold⟩
  · exact ⟨nofun, nofun, fun _ => .inr fun o ho heq => by simpa [htold] using huntold o ho heq⟩

theorem pair_told_true : ∃ s, pair = some s ∧
    ∃ a ∈ s.answers, ∃ ride, a.ride = some ride ∧ ∃ o ∈ s.landed, Carries o ride := by
  obtain ⟨s, hrun, hfacts⟩ := Option.map_eq_some_iff.mp pair_facts
  obtain ⟨hrides, hcommitted⟩ := Prod.mk.inj hfacts
  obtain ⟨a, rest, ha, ha', -⟩ := List.map_eq_cons_iff.mp hrides
  have hmem : a ∈ s.answers := ha ▸ List.mem_cons_self
  obtain ⟨ride, hride, -⟩ := Option.map_eq_some_iff.mp (Prod.mk.inj ha').2
  have htrue := riders_told_true (fun _ => ("", [])) pairStart pairEvents s
    (Store.bootstrap_consistent 0 "" false none).snapshots hrun (by simp [pairEvents])
  have hcommit := List.all_eq_true.mp hcommitted a hmem
  split at hcommit
  next ids houtcome =>
    obtain ⟨-, o, ho, -, hcarries⟩ := (htrue.2 a hmem ride hride).1 ids houtcome
    exact ⟨s, hrun, a, hmem, ride, hride, o, ho, hcarries⟩
  · cases hcommit

end Coalescer

end Moraine
