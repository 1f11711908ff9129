-- SUMMARY: The held head view of a read-write handle, its epoch, and when a snapshot call can be stale.
import Moraine.Base.Runs
import Moraine.Catalog.HeadReads

/-!
# The held head view

A read-write handle serves its held view as the head without reading the store. A read that finds no view captures
the cache's epoch, opens a session, reads the head view in it step by step, and installs the view if the epoch has
not moved. A commit's base read does the same, in a transaction that began earlier. The commit then lands a group
of members as one batch. If the group mints a snapshot, the commit replaces the held view by its folded base once
the batch has landed; if it keeps the head's snapshot id, it drops the view before it writes. Both move the epoch.

`snapshot_calls_fresh` says in which runs every snapshot call returns the view of a state that includes each
commit that had returned before the call.
-/

namespace Moraine

open Std (ExtTreeMap ExtTreeSet TransOrd LawfulEqOrd)
open OrdMap CatalogSnapshot Following

namespace ProjectionCache

variable (c : ProjectionCache)

/-- Folds a landed batch that moved the head into its base and installs the result. -/
def refreshHeadView (base : CatalogSnapshot) (writes : List StagedWrite) : ProjectionCache :=
  match base.foldBatch writes with
  | .ok view => c.setHeadView view
  | .error _ => c.clearHeadView

theorem epoch_lt_refreshHeadView (base : CatalogSnapshot) (writes : List StagedWrite) :
    c.epoch < (c.refreshHeadView base writes).epoch := by
  unfold refreshHeadView
  split <;> exact Nat.lt_succ_self _

theorem halves_refreshHeadView (base : CatalogSnapshot) (writes : List StagedWrite) :
    (c.refreshHeadView base writes).currentEntities = c.currentEntities ∧
      (c.refreshHeadView base writes).historyEntities = c.historyEntities := by
  unfold refreshHeadView
  split <;> exact ⟨rfl, rfl⟩

variable {c} in
/-- A view left by a refresh is the folded base. -/
theorem foldBatch_of_refreshHeadView {base view : CatalogSnapshot} {writes : List StagedWrite}
    (hview : (c.refreshHeadView base writes).headView = some view) : base.foldBatch writes = .ok view := by
  unfold refreshHeadView at hview
  split at hview
  · next heq =>
    cases hview
    exact heq
  · cases hview

end ProjectionCache

/-! ## Reads and commits -/

/-- A read of the head view in flight. -/
inductive ViewRead where
  /-- A snapshot call that has captured the epoch, with the commits that had returned when it began. -/
  | called (epoch : Nat) (returned : List Nat)
  /-- A commit's transaction, begun at the state of this number. -/
  | begun (pinned : Nat)
  /-- A session or transaction at a state, under a captured epoch, with what it has yet to read. -/
  | reading (forCommit : Bool) (pinned epoch : Nat) (returned : List Nat)
      (prog : ReadProg Unit (CatalogSnapshot × Bool))

inductive CommitPhase where
  | opened
  | submitted
  /-- Landed as the state of this number. -/
  | landed (number : Nat)
  /-- Landed and folded into the projections. -/
  | folded (number : Nat)
  /-- Landed, with the cache brought up to date. -/
  | settled (number : Nat)
  deriving DecidableEq

/-- A commit past its base read, with the members of its batch. -/
structure ViewCommit where
  base : CatalogSnapshot
  pinned : Nat
  members : List Member := []
  phase : CommitPhase := .opened

/-- The snapshot id the batch leaves at the head. -/
def ViewCommit.head (c : ViewCommit) : Nat := Member.headAfter c.base.snapshot.snapshotId c.members

/-- Whether the commit moves the head's snapshot id. -/
def ViewCommit.headAdvanced (c : ViewCommit) : Bool := c.base.snapshot.snapshotId < c.head

/-- What a snapshot call returned, with the commits that had returned when it began. -/
structure ViewAnswer where
  returned : List Nat
  view : CatalogSnapshot

/-- The committed states in order, the cache, and what is in flight. `settled` lists the commits whose cache
    work is done: they have installed their view or, where they keep the head, have landed. -/
structure ViewSystem where
  states : List Store
  cache : ProjectionCache := {}
  reads : List ViewRead := []
  commits : List ViewCommit := []
  settled : List Nat := []
  returned : List Nat := []
  answers : List ViewAnswer := []

inductive ViewEvent where
  /-- A snapshot call: answered from the held view, or it captures the epoch and starts to read. -/
  | snapshot
  /-- A commit's transaction begins. -/
  | begin
  /-- A snapshot call opens its read session. -/
  | pin (i : Nat)
  /-- A commit's base read captures the epoch. -/
  | capture (i : Nat)
  /-- A read takes its next step, in the store or in the cache. -/
  | read (i : Nat)
  /-- A read installs its view; a snapshot call returns it. -/
  | install (i : Nat)
  /-- A commit hands its batch over; if it keeps the head, the held view is dropped. -/
  | submit (i : Nat) (members : List Member)
  /-- The batch lands: no other did since the transaction began. -/
  | land (i : Nat)
  /-- The commit gives up before it submits, or its batch lost the race. -/
  | lose (i : Nat)
  /-- The durable write failed, its fate unknown. -/
  | fail (i : Nat)
  /-- The commit folds its landed batch into the projections. -/
  | fold (i : Nat)
  /-- The commit brings the held view up to date. -/
  | settle (i : Nat)
  /-- The commit returns. -/
  | finish (i : Nat)

namespace ViewSystem

/-- The number of the newest state. -/
def newest (sys : ViewSystem) : Nat := sys.states.length - 1

def setRead (sys : ViewSystem) (i : Nat) (r : ViewRead) : ViewSystem := { sys with reads := sys.reads.set i r }

def setCommit (sys : ViewSystem) (i : Nat) (c : ViewCommit) : ViewSystem :=
  { sys with commits := sys.commits.set i c }

/-- A read that has its view gives it to its caller. A commit does not install the held view again. -/
def finishRead (sys : ViewSystem) (i : Nat) (forCommit : Bool) (pinned epoch : Nat) (returned : List Nat)
    (view : CatalogSnapshot) (held : Bool) : ViewSystem :=
  if forCommit then
    { sys with
      reads := sys.reads.eraseIdx i
      cache := if held then sys.cache else sys.cache.setHeadViewAt epoch view
      commits := sys.commits ++ [{ base := view, pinned := pinned }] }
  else
    { sys with
      reads := sys.reads.eraseIdx i
      cache := sys.cache.setHeadViewAt epoch view
      answers := sys.answers ++ [⟨returned, view⟩] }

/-- A program in flight takes its next step at the state it is pinned to. -/
def stepProg (sys : ViewSystem) (pinned : Nat) :
    ReadProg Unit (CatalogSnapshot × Bool) → Option (ProjectionCache × ReadProg Unit (CatalogSnapshot × Bool))
  | .read next => sys.states[pinned]?.map fun s => (sys.cache, next { catalog := s })
  | .hold update next => some (update sys.cache, next sys.cache)
  | .done _ => none

def stepRead (sys : ViewSystem) (i : Nat) (r : ViewRead) : ViewEvent → Option ViewSystem
  | .pin _ =>
    match r with
    | .called epoch returned => some (sys.setRead i (.reading false sys.newest epoch returned Catalog.sessionView))
    | _ => none
  | .capture _ =>
    match r with
    | .begun pinned => some (sys.setRead i (.reading true pinned sys.cache.epoch [] Catalog.headViewFor))
    | _ => none
  | .read _ =>
    match r with
    | .reading _ _ _ _ (.done (.error _)) => some { sys with reads := sys.reads.eraseIdx i }
    | .reading forCommit pinned epoch returned prog => (sys.stepProg pinned prog).map fun (cache, prog) =>
      { sys.setRead i (.reading forCommit pinned epoch returned prog) with cache := cache }
    | _ => none
  | .install _ =>
    match r with
    | .reading forCommit pinned epoch returned (.done (.ok (view, held))) =>
      some (sys.finishRead i forCommit pinned epoch returned view held)
    | _ => none
  | _ => none

def stepCommit (sys : ViewSystem) (i : Nat) (c : ViewCommit) : ViewEvent → Option ViewSystem
  | .submit _ members =>
    if c.phase = .opened ∧ members.isEmpty = false then
      let c := { c with members := members, phase := .submitted }
      let sys := sys.setCommit i c
      some (if c.headAdvanced then sys else { sys with cache := sys.cache.clearHeadView })
    else none
  | .land _ =>
    -- A batch writes the head, so it lands only on the state its transaction began at.
    if c.phase = .submitted ∧ c.pinned = sys.newest then
      (sys.states[sys.newest]?.bind fun s => s.land c.members).map fun landed =>
        let number := sys.states.length
        { sys.setCommit i { c with phase := .landed number } with
          states := sys.states ++ [landed]
          settled := if c.headAdvanced then sys.settled else number :: sys.settled }
    else none
  | .lose _ =>
    if c.phase = .opened ∨ c.phase = .submitted ∧ c.pinned ≠ sys.newest then
      some { sys with commits := sys.commits.eraseIdx i }
    else none
  | .fail _ => some { sys with commits := sys.commits.eraseIdx i, cache := sys.cache.clearHeadView }
  | .fold _ =>
    match c.phase with
    | .landed number => sys.states[c.pinned]?.map fun s =>
      { sys.setCommit i { c with phase := .folded number } with
        cache := sys.cache.applyBatch (s.group c.members).2 c.head }
    | _ => none
  | .settle _ =>
    match c.phase with
    | .folded number => sys.states[c.pinned]?.map fun s =>
      let settling := sys.setCommit i { c with phase := .settled number }
      if c.headAdvanced then
        { settling with
          cache := sys.cache.refreshHeadView c.base (s.group c.members).2
          settled := number :: sys.settled }
      else settling
    | _ => none
  | .finish _ =>
    match c.phase with
    | .settled number =>
      some { sys with commits := sys.commits.eraseIdx i, returned := number :: sys.returned }
    | _ => none
  | _ => none

def step (sys : ViewSystem) (e : ViewEvent) : Option ViewSystem :=
  match e with
  | .snapshot =>
    match sys.cache.headView with
    | some view => some { sys with answers := sys.answers ++ [⟨sys.returned, view⟩] }
    | none => some { sys with reads := sys.reads ++ [.called sys.cache.epoch sys.returned] }
  | .begin => some { sys with reads := sys.reads ++ [.begun sys.newest] }
  | .pin i | .capture i | .read i | .install i => sys.reads[i]?.bind fun r => sys.stepRead i r e
  | .submit i _ | .land i | .lose i | .fail i | .fold i | .settle i | .finish i =>
    sys.commits[i]?.bind fun c => sys.stepCommit i c e

/-- Every snapshot call returned the view of a state with each commit that had returned before it. -/
def AnswersFresh (sys : ViewSystem) : Prop :=
  ∀ a ∈ sys.answers, ∃ n s, sys.states[n]? = some s ∧ s.Rebuilds a.view ∧ ∀ m ∈ a.returned, m ≤ n

/-- The steps that can leave a stale or wrong view behind do not.

    - While a read is under way, a held view that would replay to the state it reads has a gap that fits.
    - When a commit's base read captures the epoch, its transaction sees every settled commit.
    - When a batch that keeps the head lands, no view is held, and no read that has opened its session holds
      the current epoch.
    - When a commit brings the held view up to date, no later commit has settled, and its group, unless it deletes a
      column mapping, fits the base. -/
def Orderly (sys : ViewSystem) : ViewEvent → Prop
  | .read i => ∀ forCommit n epoch returned prog s behind,
    sys.reads[i]? = some (.reading forCommit n epoch returned prog) → sys.states[n]? = some s →
    sys.cache.headView = some behind → s.Replays behind → s.ReplayFits behind
  | .capture i => ∀ n, sys.reads[i]? = some (.begun n) → ∀ m ∈ sys.settled, m ≤ n
  | .land i => ∀ c, sys.commits[i]? = some c → c.headAdvanced = false → sys.cache.headView = none ∧
    ∀ forCommit n returned prog, .reading forCommit n sys.cache.epoch returned prog ∉ sys.reads
  | .settle i => ∀ c n, sys.commits[i]? = some c → c.phase = .folded n → c.headAdvanced = true →
    (∀ m ∈ sys.settled, m ≤ n) ∧
      ((∀ m ∈ c.members, ∀ w ∈ currentWrites m.writes, isMappingDelete w = false) → GroupFits c.base c.members)
  | _ => True

end ViewSystem

/-! ## The invariant -/

namespace ViewSystem

variable {sys sys' : ViewSystem}

/-- The view is that of a state with every settled commit. -/
def Current (sys : ViewSystem) (view : CatalogSnapshot) : Prop :=
  ∃ n s, sys.states[n]? = some s ∧ s.Shows view ∧ ∀ m ∈ sys.settled, m ≤ n

/-- What a read at `s` may find in the cache: a view of a committed state, whose gap fits if it can be refreshed to
    `s`, and halves that are scans. -/
structure Serves (states : List Store) (s : Store) (c : ProjectionCache) : Prop where
  view : ∀ view, c.headView = some view → ∃ t ∈ states, t.Shows view
  fits : ∀ behind, c.headView = some behind → s.Replays behind → s.ReplayFits behind
  halves : HalvesExact states c

theorem Serves.mono {states states' : List Store} {s : Store} {c : ProjectionCache} (h : Serves states s c)
    (hsub : states ⊆ states') : Serves states' s c where
  view view hview := (h.view view hview).imp fun _ ht => ⟨hsub ht.1, ht.2⟩
  fits := h.fits
  halves := ⟨fun head records hheld => (h.halves.current head records hheld).imp fun _ ht => ⟨hsub ht.1, ht.2⟩,
    fun head records hheld => (h.halves.history head records hheld).imp fun _ ht => ⟨hsub ht.1, ht.2⟩⟩

/-- All that a session at `s` sees. -/
abbrev pinnedTo (s : Store) : List (StoreState Unit) := [{ catalog := s }]

/-- The view stands at a state that is not being migrated. -/
abbrev StandsOpen (s : Store) (view : CatalogSnapshot) : Prop := s.migration = none → s.Shows view

/-- Whatever states follow and whatever the others leave in the cache, the program ends with a view of `s`, and it
    leaves the held view and the epoch. -/
structure Finds (states : List Store) (s : Store) (prog : ReadProg Unit (CatalogSnapshot × Bool)) : Prop where
  meets : ∀ states', states <+: states' → History states' →
    Meets (pinnedTo s) (fun _ => Serves states' s) false (fun _ found => s.Shows found.1) (some 0) prog
  updates : prog.Updates KeepsView

/-- What holds of a read that has opened its session. -/
structure ReadingSound (sys : ViewSystem) (pinned epoch : Nat) (returned : List Nat)
    (prog : ReadProg Unit (CatalogSnapshot × Bool)) : Prop where
  past : epoch ≤ sys.cache.epoch
  current : epoch = sys.cache.epoch → ∀ m ∈ sys.settled, m ≤ pinned
  returned : ∀ m ∈ returned, m ≤ pinned
  finds : ∃ s, sys.states[pinned]? = some s ∧ Finds sys.states s prog

/-- What holds of a read in flight. -/
def ReadSound (sys : ViewSystem) : ViewRead → Prop
  | .called epoch returned => epoch ≤ sys.cache.epoch ∧ ∀ m ∈ returned, m < sys.states.length
  | .begun pinned => pinned < sys.states.length
  | .reading _ pinned epoch returned prog => sys.ReadingSound pinned epoch returned prog

/-- What holds of a commit past its base read. -/
structure CommitSound (sys : ViewSystem) (c : ViewCommit) : Prop where
  base : ∃ s, sys.states[c.pinned]? = some s ∧ s.Shows c.base
  members : c.phase ≠ .opened → c.members ≠ []
  landed : ∀ n, c.phase = .landed n ∨ c.phase = .folded n →
    (∃ s t, sys.states[c.pinned]? = some s ∧ Run s c.members t ∧ sys.states[n]? = some t) ∧
      (c.headAdvanced = false → n ∈ sys.settled)
  settled : ∀ n, c.phase = .settled n → n ∈ sys.settled

structure Coherent (sys : ViewSystem) : Prop where
  nonempty : sys.states ≠ []
  history : History sys.states
  settled : ∀ m ∈ sys.settled, m < sys.states.length
  returned : ∀ m ∈ sys.returned, m ∈ sys.settled
  held : ∀ view, sys.cache.headView = some view → sys.Current view
  halves : HalvesExact sys.states sys.cache
  reads : ∀ r ∈ sys.reads, sys.ReadSound r
  commits : ∀ c ∈ sys.commits, sys.CommitSound c
  answers : sys.AnswersFresh

/-! ## What a read finds -/

section Finds

variable {states : List Store} {s : Store} (hs : s ∈ states)
include hs

/-- A session at one state reads the head view of that state. -/
theorem headReads (h : History states) :
    HeadReads (pinnedTo s) (fun _ => Serves states s) StandsOpen where
  stamp m n t u ht hu _ := by
    rw [List.getElem?_singleton] at ht hu
    grind
  held _ c hc t ht view hview := by
    obtain rfl := List.mem_singleton.mp ht
    exact fun _ => h.of_headViewAt (fun _ _ hshows => hshows.toLists) hc.view hs hview
  refreshed _ c hc behind hheld t ht view hview hmigration := by
    obtain rfl := List.mem_singleton.mp ht
    obtain ⟨u, hu, hshows⟩ := hc.view behind hheld
    have hreplays : s.Replays behind := by
      by_contra hdeclines
      rw [Store.refresh_of_not_replays hdeclines] at hview
      cases hview
    have hfits := hc.fits behind hheld hreplays
    exact hshows.refresh (h.consistent hs).keyed hfits.live (fun k => h.frame hs hu hshows.toLists hreplays) hview
      hmigration hfits.names
  half _ c hc t ht records hheld := by
    obtain rfl := List.mem_singleton.mp ht
    exact hc.halves.currentEntitiesAt h.committed hs hheld
  scanned t ht view hview := by
    obtain rfl := List.mem_singleton.mp ht
    have hshows := Store.shows_of_materialize (h.consistent hs).keyed hview
    refine ⟨fun _ => hshows, fun _ c hc => { hc with halves := ⟨fun head records hheld => ?_, hc.halves.history⟩ }⟩
    cases hheld
    exact ⟨s, hs, (hshows.viewHead (h.consistent hs).snapshots).symm, rfl⟩

/-- A session is opened behind the migration gate. -/
private theorem finds_gate {p : ReadProg Unit (CatalogSnapshot × Bool)} (hupdates : p.Updates KeepsView)
    (hp : ∀ inv pos, HeadReads (pinnedTo s) inv StandsOpen →
      Meets (pinnedTo s) inv false (fun pos found => StandsAt (pinnedTo s) StandsOpen pos found.1) pos p) :
    Finds states s (Catalog.refuseMidMigration >>= fun _ => p) := by
  refine ⟨fun states' hbegins hhistory => ?_, ((Prog.readOnly_getE _).updates).bind fun _ => hupdates⟩
  refine Meets.getE_bind fun n t _ ht _ hrefuse => ?_
  refine (hp _ _ (headReads (hbegins.subset hs) hhistory)).mono fun _ found ⟨n', t', _, ht', hstands⟩ => ?_
  rw [List.mem_singleton.mp (List.mem_of_getElem? ht)] at hrefuse
  rw [List.mem_singleton.mp (List.mem_of_getElem? ht')] at hstands
  exact hstands (Store.migration_of_refuse hrefuse)

theorem finds_headViewFor : Finds states s Catalog.headViewFor :=
  finds_gate hs Catalog.updates_baseView fun _ _ h => h.meets_baseView

theorem finds_sessionView : Finds states s Catalog.sessionView :=
  finds_gate hs (Catalog.updates_headView.bind fun _ => trivial) fun _ _ h =>
    h.meets_headView.bind fun _ _ hstands => hstands

end Finds

/-! ## What every step keeps -/

/-- The states only grow, and the epoch only moves on. -/
structure Extends (sys sys' : ViewSystem) : Prop where
  states : sys.states <+: sys'.states
  epoch : sys.cache.epoch ≤ sys'.cache.epoch

theorem Extends.getElem? (h : Extends sys sys') {n : Nat} {s : Store} (hs : sys.states[n]? = some s) :
    sys'.states[n]? = some s := by
  obtain ⟨more, hmore⟩ := h.states
  rw [← hmore, List.getElem?_append_left (List.getElem?_eq_some_iff.mp hs).1]
  exact hs

/-- A read stays sound if the settled commits only grow where its epoch has passed or it reads a state that has
    them. -/
theorem ReadSound.extend (h : Extends sys sys') {r : ViewRead} (hr : sys.ReadSound r)
    (hcurrent : ∀ forCommit n returned prog, r = .reading forCommit n sys'.cache.epoch returned prog →
      ∀ m ∈ sys'.settled, m ≤ n) : sys'.ReadSound r := by
  have hlength := h.states.length_le
  cases r with
  | called epoch returned => exact ⟨hr.1.trans h.epoch, fun m hm => (hr.2 m hm).trans_le hlength⟩
  | begun pinned => exact hr.trans_le hlength
  | reading forCommit n epoch returned prog =>
    obtain ⟨s, hs, hfinds⟩ := hr.finds
    exact
      { past := hr.past.trans h.epoch
        current := by
          rintro rfl
          exact hcurrent _ _ _ _ rfl
        returned := hr.returned
        finds := ⟨s, h.getElem? hs, fun states hbegins => hfinds.meets states (h.states.trans hbegins),
          hfinds.updates⟩ }

/-- A read that captured an earlier epoch holds no other. -/
theorem ReadSound.extend_of_lt (h : Extends sys sys') (hlt : sys.cache.epoch < sys'.cache.epoch) {r : ViewRead}
    (hr : sys.ReadSound r) : sys'.ReadSound r := by
  refine hr.extend h ?_
  rintro forCommit n returned prog rfl
  exact absurd hr.past hlt.not_ge

theorem CommitSound.extend (h : Extends sys sys') (hsub : sys.settled ⊆ sys'.settled) {c : ViewCommit}
    (hc : sys.CommitSound c) : sys'.CommitSound c where
  base := by
    obtain ⟨s, hs, hshows⟩ := hc.base
    exact ⟨s, h.getElem? hs, hshows⟩
  members := hc.members
  landed n hn := by
    obtain ⟨⟨s, t, hs, hrun, ht⟩, hkept⟩ := hc.landed n hn
    exact ⟨⟨s, t, h.getElem? hs, hrun, h.getElem? ht⟩, fun hadvanced => hsub (hkept hadvanced)⟩
  settled n hn := hsub (hc.settled n hn)

/-- Neither the states, the epoch nor the settled commits change. -/
structure Keeps (sys sys' : ViewSystem) : Prop where
  states : sys'.states = sys.states
  epoch : sys'.cache.epoch = sys.cache.epoch
  settled : sys'.settled = sys.settled

theorem Keeps.extends (h : Keeps sys sys') : Extends sys sys' := ⟨by rw [h.states], h.epoch.ge⟩

theorem ReadSound.keep {r : ViewRead} (hr : sys.ReadSound r) (hkeeps : Keeps sys sys') : sys'.ReadSound r := by
  refine hr.extend hkeeps.extends ?_
  rintro forCommit n returned prog rfl
  rw [hkeeps.settled]
  exact hr.current hkeeps.epoch

theorem CommitSound.keep {c : ViewCommit} (hc : sys.CommitSound c) (hkeeps : Keeps sys sys') : sys'.CommitSound c :=
  hc.extend hkeeps.extends (by rw [hkeeps.settled]; exact List.Subset.refl _)

section Coherent

variable (h : sys.Coherent)
include h

private theorem Coherent.newest_lt : sys.newest < sys.states.length :=
  Nat.sub_lt (List.length_pos_iff.mpr h.nonempty) Nat.one_pos

omit h in
private theorem le_newest {m : Nat} (hm : m < sys.states.length) : m ≤ sys.newest := Nat.le_sub_one_of_lt hm

/-- Reads and commits come and go, and the cache may hold other halves: nothing else depends on them. -/
private theorem Coherent.change {cache : ProjectionCache} {reads : List ViewRead} {commits : List ViewCommit}
    (hepoch : cache.epoch = sys.cache.epoch) (hview : ∀ view, cache.headView = some view → sys.Current view)
    (hhalves : HalvesExact sys.states cache) (hreads : ∀ r ∈ reads, sys.ReadSound r)
    (hcommits : ∀ c ∈ commits, sys.CommitSound c) :
    Coherent { sys with cache := cache, reads := reads, commits := commits } :=
  have hkeeps : Keeps sys { sys with cache := cache, reads := reads, commits := commits } := ⟨rfl, hepoch, rfl⟩
  { h with
    held := hview
    halves := hhalves
    reads := fun r hr => (hreads r hr).keep hkeeps
    commits := fun c hc => (hcommits c hc).keep hkeeps }

private theorem Coherent.withReads {reads : List ViewRead} (hreads : ∀ r ∈ reads, sys.ReadSound r) :
    Coherent { sys with reads := reads } :=
  h.change rfl h.held h.halves hreads h.commits

private theorem Coherent.withCommits {commits : List ViewCommit} (hcommits : ∀ c ∈ commits, sys.CommitSound c) :
    Coherent { sys with commits := commits } :=
  h.change rfl h.held h.halves h.reads hcommits

private theorem Coherent.setRead {i : Nat} {r : ViewRead} (hr : sys.ReadSound r) : (sys.setRead i r).Coherent := by
  refine h.withReads fun r' hr' => ?_
  rcases List.mem_or_eq_of_mem_set hr' with hr' | rfl
  · exact h.reads r' hr'
  · exact hr

private theorem Coherent.setCommit {i : Nat} {c : ViewCommit} (hc : sys.CommitSound c) :
    (sys.setCommit i c).Coherent := by
  refine h.withCommits fun c' hc' => ?_
  rcases List.mem_or_eq_of_mem_set hc' with hc' | rfl
  · exact h.commits c' hc'
  · exact hc

private theorem Coherent.eraseCommit (i : Nat) : Coherent { sys with commits := sys.commits.eraseIdx i } :=
  h.withCommits fun c hc => h.commits c (List.mem_of_mem_eraseIdx hc)

/-- A returned view of a state is fresh. -/
private theorem Coherent.answer {n : Nat} {s : Store} {returned : List Nat} {view : CatalogSnapshot}
    (hs : sys.states[n]? = some s) (hshows : s.Shows view) (hreturned : ∀ m ∈ returned, m ≤ n) :
    Coherent { sys with answers := sys.answers ++ [⟨returned, view⟩] } :=
  { h with
    reads := fun r hr => (h.reads r hr).keep ⟨rfl, rfl, rfl⟩
    commits := fun c hc => (h.commits c hc).keep ⟨rfl, rfl, rfl⟩
    answers := fun a ha => by
      rcases List.mem_append.mp ha with ha | ha
      · exact h.answers a ha
      · rw [List.mem_singleton.mp ha]
        exact ⟨n, s, hs, hshows.rebuilds (h.history.consistent (List.mem_of_getElem? hs)).keyed, hreturned⟩ }

/-! ## Reads -/

theorem Coherent.snapshot (hstep : sys.step .snapshot = some sys') : sys'.Coherent := by
  rw [step] at hstep
  split at hstep
  · next view hview =>
    cases hstep
    obtain ⟨n, s, hs, hshows, hsettled⟩ := h.held view hview
    exact h.answer hs hshows fun m hm => hsettled m (h.returned m hm)
  · cases hstep
    refine h.withReads fun r hr => ?_
    rcases List.mem_append.mp hr with hr | hr
    · exact h.reads r hr
    · rw [List.mem_singleton.mp hr]
      exact ⟨le_rfl, fun m hm => h.settled m (h.returned m hm)⟩

theorem Coherent.begin (hstep : sys.step .begin = some sys') : sys'.Coherent := by
  cases hstep
  refine h.withReads fun r hr => ?_
  rcases List.mem_append.mp hr with hr | hr
  · exact h.reads r hr
  · rw [List.mem_singleton.mp hr]
    exact h.newest_lt

variable {i : Nat} {r : ViewRead} (hr : sys.ReadSound r)
include hr

theorem Coherent.pin (hstep : sys.stepRead i r (.pin i) = some sys') : sys'.Coherent := by
  simp only [stepRead] at hstep
  split at hstep
  · cases hstep
    refine h.setRead ⟨hr.1, fun _ m hm => le_newest (h.settled m hm), fun m hm => le_newest (hr.2 m hm), ?_⟩
    exact ⟨_, List.getElem?_eq_getElem h.newest_lt, finds_sessionView (List.getElem_mem _)⟩
  · cases hstep

theorem Coherent.capture (hq : ∀ n, r = .begun n → ∀ m ∈ sys.settled, m ≤ n)
    (hstep : sys.stepRead i r (.capture i) = some sys') : sys'.Coherent := by
  simp only [stepRead] at hstep
  split at hstep
  · next n =>
    cases hstep
    refine h.setRead ⟨le_rfl, fun _ => hq n rfl, fun m hm => (by cases hm), ?_⟩
    exact ⟨_, List.getElem?_eq_getElem hr, finds_headViewFor (List.getElem_mem _)⟩
  · cases hstep

theorem Coherent.read (hq : ∀ forCommit n epoch returned prog s behind,
      r = .reading forCommit n epoch returned prog → sys.states[n]? = some s → sys.cache.headView = some behind →
      s.Replays behind → s.ReplayFits behind)
    (hstep : sys.stepRead i r (.read i) = some sys') : sys'.Coherent := by
  simp only [stepRead] at hstep
  split at hstep
  · cases hstep
    exact h.withReads fun r' hr' => h.reads r' (List.mem_of_mem_eraseIdx hr')
  · next forCommit n epoch returned prog _ =>
    obtain ⟨⟨cache, prog'⟩, hprog, rfl⟩ := Option.map_eq_some_iff.mp hstep
    obtain ⟨s, hs, hfinds⟩ := hr.finds
    -- The program moves on and may leave another half in the cache.
    suffices hnext : (cache.headView = sys.cache.headView ∧ cache.epoch = sys.cache.epoch) ∧
        HalvesExact sys.states cache ∧ Finds sys.states s prog' by
      obtain ⟨⟨hview, hepoch⟩, hhalves, hfinds'⟩ := hnext
      refine h.change hepoch (by rw [hview]; exact h.held) hhalves (fun r' hr' => ?_) h.commits
      rcases List.mem_or_eq_of_mem_set hr' with hr' | rfl
      · exact h.reads r' hr'
      · exact { hr with finds := ⟨s, hs, hfinds'⟩ }
    cases prog with
    | done result => cases hprog
    | read next =>
      rw [stepProg, hs] at hprog
      cases hprog
      exact ⟨⟨rfl, rfl⟩, h.halves, fun states hbegins hhistory =>
        hfinds.meets states hbegins hhistory 0 _ rfl ⟨le_rfl, nofun⟩, hfinds.updates _⟩
    | hold update next =>
      cases hprog
      have hserves : Serves sys.states s sys.cache :=
        { view := fun view hview => by
            obtain ⟨m, t, ht, hshows, -⟩ := h.held view hview
            exact ⟨t, List.mem_of_getElem? ht, hshows⟩
          fits := fun behind => hq _ n _ _ _ s behind rfl hs
          halves := h.halves }
      have hmeets := fun states (hbegins : sys.states <+: states) hhistory =>
        hfinds.meets states hbegins hhistory 0 _ ⟨le_rfl, nofun⟩ (hserves.mono hbegins.subset)
      exact ⟨hfinds.updates.1 sys.cache, (hmeets _ List.prefix_rfl h.history).1.halves,
        fun states hbegins hhistory => (hmeets states hbegins hhistory).2, hfinds.updates.2 _⟩
  · cases hstep

omit hr in
/-- Installing a view under the epoch it was captured at leaves a view of a current state. -/
private theorem Coherent.setHeadViewAt {n epoch : Nat} {returned : List Nat} {view : CatalogSnapshot} {held : Bool}
    (hr : sys.ReadingSound n epoch returned (.done (.ok (view, held)))) :
    Coherent { sys with cache := sys.cache.setHeadViewAt epoch view } := by
  obtain ⟨s, hs, hfinds⟩ := hr.finds
  have hshows : s.Shows view := hfinds.meets _ List.prefix_rfl h.history
  unfold ProjectionCache.setHeadViewAt
  split
  · next hsame =>
    refine h.change rfl (fun view' hview' => ?_) ⟨h.halves.current, h.halves.history⟩ h.reads h.commits
    cases hview'
    exact ⟨n, s, hs, hshows, hr.current hsame.symm⟩
  · exact h

theorem Coherent.install (hstep : sys.stepRead i r (.install i) = some sys') : sys'.Coherent := by
  simp only [stepRead] at hstep
  split at hstep
  · next forCommit n epoch returned view held =>
    cases hstep
    unfold finishRead
    obtain ⟨s, hs, hfinds⟩ := hr.finds
    have hshows : s.Shows view := hfinds.meets _ List.prefix_rfl h.history
    have hinstalled := h.setHeadViewAt hr
    split
    · -- The base of a commit; a held view is not installed again.
      have hcache : Coherent { sys with cache := if held then sys.cache else sys.cache.setHeadViewAt epoch view } := by
        cases held
        · exact hinstalled
        · exact h
      refine (hcache.withReads fun r' hr' => hcache.reads r' (List.mem_of_mem_eraseIdx hr')).withCommits fun c hc => ?_
      rcases List.mem_append.mp hc with hc | hc
      · exact (hcache.commits c hc).keep ⟨rfl, rfl, rfl⟩
      · rw [List.mem_singleton.mp hc]
        exact
          { base := ⟨s, hs, hshows⟩
            members := fun hopened => absurd rfl hopened
            landed := fun m hm => by rcases hm with hm | hm <;> cases hm
            settled := fun m hm => by cases hm }
    · exact (hinstalled.withReads fun r' hr' => hinstalled.reads r' (List.mem_of_mem_eraseIdx hr')).answer hs hshows
        hr.returned
  · cases hstep

omit hr

/-! ## Commits -/

/-- A commit settles with the epoch moved on: the view left, if any, is its own. -/
private theorem Coherent.settleView {cache : ProjectionCache} {settled : List Nat}
    (hepoch : sys.cache.epoch < cache.epoch) (hhalves : HalvesExact sys.states cache)
    (hlt : ∀ m ∈ settled, m < sys.states.length) (hsub : sys.settled ⊆ settled)
    (hview : ∀ view, cache.headView = some view → Current { sys with cache := cache, settled := settled } view) :
    Coherent { sys with cache := cache, settled := settled } := by
  have hextends : Extends sys { sys with cache := cache, settled := settled } := ⟨List.prefix_rfl, hepoch.le⟩
  refine { h with
    settled := hlt
    returned := fun m hm => hsub (h.returned m hm)
    held := hview
    halves := hhalves
    reads := fun r hr => (h.reads r hr).extend_of_lt hextends hepoch
    commits := fun c hc => (h.commits c hc).extend hextends hsub }

private theorem Coherent.clearHeadView : Coherent { sys with cache := sys.cache.clearHeadView } :=
  h.settleView (Nat.lt_succ_self _) ⟨h.halves.current, h.halves.history⟩ h.settled (List.Subset.refl _)
    fun view hview => by cases hview

/-- A landed batch appends its state; a commit that settles by landing finds no view held and no read that could
    install one. -/
private theorem Coherent.append {newest s : Store} {ms : List Member} {settled : List Nat}
    (hnewest : sys.states[sys.newest]? = some newest) (hrun : Run newest ms s) (hne : ms ≠ [])
    (hsub : sys.settled ⊆ settled) (hbound : ∀ m ∈ settled, m ≤ sys.states.length)
    (hnone : settled ⊆ sys.settled ∨ sys.cache.headView = none ∧
      ∀ forCommit n returned prog, .reading forCommit n sys.cache.epoch returned prog ∉ sys.reads) :
    Coherent { sys with states := sys.states ++ [s], settled := settled } := by
  have hextends : Extends sys { sys with states := sys.states ++ [s], settled := settled } :=
    ⟨List.prefix_append _ _, le_rfl⟩
  have hlength : (sys.states ++ [s]).length = sys.states.length + 1 := List.length_append
  have hmono : ∀ {p : Store → Prop}, (∃ t ∈ sys.states, p t) → ∃ t ∈ sys.states ++ [s], p t :=
    fun ⟨t, ht, hp⟩ => ⟨t, List.mem_append_left _ ht, hp⟩
  refine
    { nonempty := by simp
      history := ⟨fun t ht => h.history.start t ?start, List.isChain_append.mpr
        ⟨h.history.committed, List.isChain_singleton _, fun t ht u hu => ?committed⟩⟩
      settled := fun m hm => by rw [hlength]; exact Nat.lt_succ_of_le (hbound m hm)
      returned := fun m hm => hsub (h.returned m hm)
      held := fun view hview => ?held
      halves := ⟨fun head records hheld => hmono (h.halves.current head records hheld),
        fun head records hheld => hmono (h.halves.history head records hheld)⟩
      reads := fun r hr => (h.reads r hr).extend hextends ?reads
      commits := fun c hc => (h.commits c hc).extend hextends hsub
      answers := fun a ha => ?answers }
  case start => rwa [List.getElem?_append_left (List.length_pos_iff.mpr h.nonempty)] at ht
  case committed =>
    rw [List.getLast?_eq_getElem?, ← ViewSystem.newest, hnewest, Option.mem_some_iff] at ht
    rw [List.head?_singleton, Option.mem_some_iff] at hu
    exact ⟨ms, hne, ht ▸ hu ▸ hrun⟩
  case held =>
    rcases hnone with hsame | ⟨hnone, -⟩
    · obtain ⟨n, t, ht, hshows, hsettled⟩ := h.held view hview
      exact ⟨n, t, hextends.getElem? ht, hshows, fun m hm => hsettled m (hsame hm)⟩
    · cases hnone.symm.trans hview
  case reads =>
    rintro forCommit n returned prog rfl m hm
    rcases hnone with hsame | ⟨-, hnone⟩
    · exact (h.reads _ hr).current rfl m (hsame hm)
    · exact absurd hr (hnone forCommit n returned prog)
  case answers =>
    obtain ⟨n, t, ht, hrest⟩ := h.answers a ha
    exact ⟨n, t, hextends.getElem? ht, hrest⟩

variable {c : ViewCommit} (hc : sys.CommitSound c)
include hc

theorem Coherent.submit {members : List Member} (hstep : sys.stepCommit i c (.submit i members) = some sys') :
    sys'.Coherent := by
  rw [stepCommit] at hstep
  split at hstep
  · next hopen =>
    cases hstep
    have hset : (sys.setCommit i { c with members := members, phase := .submitted }).Coherent :=
      h.setCommit
        { base := hc.base
          members := fun _ hnil => absurd hopen.2 (by simp [show members = [] from hnil])
          landed := fun n hn => by rcases hn with hn | hn <;> cases hn
          settled := fun n hn => by cases hn }
    split
    · exact hset
    · exact hset.clearHeadView
  · cases hstep

theorem Coherent.land
    (hq : c.headAdvanced = false → sys.cache.headView = none ∧
      ∀ forCommit n returned prog, .reading forCommit n sys.cache.epoch returned prog ∉ sys.reads)
    (hstep : sys.stepCommit i c (.land i) = some sys') : sys'.Coherent := by
  rw [stepCommit] at hstep
  split at hstep
  · next hsubmitted =>
    obtain ⟨landed, hland, rfl⟩ := Option.map_eq_some_iff.mp hstep
    obtain ⟨s, hs, hland⟩ := Option.bind_eq_some_iff.mp hland
    have hrun := Store.run_of_land hland
    have hne := hc.members (by rw [hsubmitted.1]; exact nofun)
    have hlanded : Coherent { sys with
        states := sys.states ++ [landed]
        settled := if c.headAdvanced then sys.settled else sys.states.length :: sys.settled } := by
      refine h.append hs hrun hne ?_ ?_ ?_
      · split
        · exact List.Subset.refl _
        · exact List.subset_cons_self _ _
      · intro m hm
        split at hm
        · exact (h.settled m hm).le
        · rcases List.mem_cons.mp hm with rfl | hm
          · exact le_rfl
          · exact (h.settled m hm).le
      · split
        · exact .inl (List.Subset.refl _)
        · next hkeeps => exact .inr (hq (by simpa using hkeeps))
    have hpinned : (sys.states ++ [landed])[c.pinned]? = some s := by
      rw [hsubmitted.2, List.getElem?_append_left h.newest_lt]
      exact hs
    refine hlanded.setCommit ?_
    exact
      { base := by
          obtain ⟨t, ht, hshows⟩ := hc.base
          rw [hsubmitted.2, hs, Option.some.injEq] at ht
          exact ⟨s, hpinned, by rw [ht]; exact hshows⟩
        members := fun _ => hne
        landed := fun n hn => by
          rcases hn with hn | hn <;> cases hn
          refine ⟨⟨s, landed, hpinned, hrun, List.getElem?_concat_length⟩, fun hkeeps => ?_⟩
          have hkeeps' : c.headAdvanced = false := hkeeps
          simp [hkeeps']
        settled := fun n hn => by cases hn }
  · cases hstep

theorem Coherent.fold (hstep : sys.stepCommit i c (.fold i) = some sys') : sys'.Coherent := by
  simp only [stepCommit] at hstep
  split at hstep
  · next n hphase =>
    obtain ⟨s, hs, rfl⟩ := Option.map_eq_some_iff.mp hstep
    obtain ⟨hview, hepoch, hcurrent, hhistory⟩ := CacheSystem.applyBatch_held sys.cache (s.group c.members).2 c.head
    have hfolded : sys.CommitSound { c with phase := .folded n } :=
      { base := hc.base
        members := fun _ => hc.members (by rw [hphase]; exact nofun)
        landed := fun m hm => by
          rcases hm with hm | hm <;> cases hm
          exact hc.landed n (.inl hphase)
        settled := fun m hm => by cases hm }
    refine (h.setCommit (i := i) hfolded).change hepoch (by rw [hview]; exact h.held)
      ⟨fun head records hheld => ?_, fun head records hheld => ?_⟩ (h.setCommit hfolded).reads
      (h.setCommit hfolded).commits
    · cases hcurrent.symm.trans hheld
    · cases hhistory.symm.trans hheld
  · cases hstep

theorem Coherent.settle
    (hq : ∀ n, c.phase = .folded n → c.headAdvanced = true → (∀ m ∈ sys.settled, m ≤ n) ∧
      ((∀ m ∈ c.members, ∀ w ∈ currentWrites m.writes, isMappingDelete w = false) → GroupFits c.base c.members))
    (hstep : sys.stepCommit i c (.settle i) = some sys') : sys'.Coherent := by
  simp only [stepCommit] at hstep
  split at hstep
  · next n hphase =>
    obtain ⟨s, hs, rfl⟩ := Option.map_eq_some_iff.mp hstep
    obtain ⟨⟨s', t, hs', hrun, ht⟩, hkept⟩ := hc.landed n (.inr hphase)
    obtain rfl : s = s' := Option.some.inj (hs.symm.trans hs')
    have hne := hc.members (by rw [hphase]; exact nofun)
    split
    · next hadvanced =>
      obtain ⟨hlast, hfits⟩ := hq n hphase hadvanced
      have hlt := (List.getElem?_eq_some_iff.mp ht).1
      have hnumbers : ∀ m ∈ n :: sys.settled, m ≤ n := fun m hm =>
        (List.mem_cons.mp hm).elim (fun heq => heq.le) (hlast m)
      have hhalves := sys.cache.halves_refreshHeadView c.base (s.group c.members).2
      have hsettled : Coherent { sys with
          cache := sys.cache.refreshHeadView c.base (s.group c.members).2, settled := n :: sys.settled } := by
        refine h.settleView (sys.cache.epoch_lt_refreshHeadView _ _)
          ⟨fun head records hheld => h.halves.current head records (hhalves.1 ▸ hheld),
            fun head records hheld => h.halves.history head records (hhalves.2 ▸ hheld)⟩
          (fun m hm => (hnumbers m hm).trans_lt hlt) (List.subset_cons_self _ _) fun view hview => ?_
        have hfold := ProjectionCache.foldBatch_of_refreshHeadView hview
        obtain ⟨s'', hs'', hshows⟩ := hc.base
        obtain rfl : s = s'' := Option.some.inj (hs.symm.trans hs'')
        refine ⟨n, t, ht, hshows.foldGroup (h.history.consistent (List.mem_of_getElem? hs)).snapshots hrun hne
          (hfits fun m hm w hw => ?_) hfold, hnumbers⟩
        -- A batch that deletes a mapping does not fold.
        by_contra hdelete
        rw [foldBatch_eq_error c.base ⟨w, ?_, by simpa using hdelete⟩] at hfold
        · cases hfold
        · rw [hrun.currentWrites_group]
          exact List.mem_flatMap.mpr ⟨m, hm, hw⟩
      refine hsettled.setCommit
        { base := hc.base, members := fun _ => hne, landed := fun m hm => ?_, settled := fun m hm => ?_ }
      · rcases hm with hm | hm <;> cases hm
      · cases hm
        exact List.mem_cons_self
    · next hkeeps =>
      refine h.setCommit
        { base := hc.base, members := fun _ => hne, landed := fun m hm => ?_, settled := fun m hm => ?_ }
      · rcases hm with hm | hm <;> cases hm
      · cases hm
        exact hkept (by simpa using hkeeps)
  · cases hstep

theorem Coherent.finish (hstep : sys.stepCommit i c (.finish i) = some sys') : sys'.Coherent := by
  simp only [stepCommit] at hstep
  split at hstep
  · next n hphase =>
    cases hstep
    have herased := h.eraseCommit i
    refine { herased with
      returned := fun m hm => ?_
      reads := fun r hr => (herased.reads r hr).keep ⟨rfl, rfl, rfl⟩
      commits := fun c hc => (herased.commits c hc).keep ⟨rfl, rfl, rfl⟩ }
    rcases List.mem_cons.mp hm with rfl | hm
    · exact hc.settled m hphase
    · exact h.returned m hm
  · cases hstep

end Coherent

/-- Every orderly step keeps the system coherent. -/
theorem Coherent.step (h : sys.Coherent) {e : ViewEvent} (hq : sys.Orderly e) (hstep : sys.step e = some sys') :
    sys'.Coherent := by
  cases e with
  | snapshot => exact h.snapshot hstep
  | begin => exact h.begin hstep
  | pin i =>
    obtain ⟨r, hr, hstep⟩ := Option.bind_eq_some_iff.mp hstep
    exact h.pin (h.reads r (List.mem_of_getElem? hr)) hstep
  | capture i =>
    obtain ⟨r, hr, hstep⟩ := Option.bind_eq_some_iff.mp hstep
    exact h.capture (h.reads r (List.mem_of_getElem? hr)) (fun n heq => hq n (heq ▸ hr)) hstep
  | read i =>
    obtain ⟨r, hr, hstep⟩ := Option.bind_eq_some_iff.mp hstep
    refine h.read (h.reads r (List.mem_of_getElem? hr)) ?_ hstep
    exact fun _ _ _ _ _ s behind heq => hq _ _ _ _ _ s behind (heq ▸ hr)
  | install i =>
    obtain ⟨r, hr, hstep⟩ := Option.bind_eq_some_iff.mp hstep
    exact h.install (h.reads r (List.mem_of_getElem? hr)) hstep
  | submit i members =>
    obtain ⟨c, hc, hstep⟩ := Option.bind_eq_some_iff.mp hstep
    exact h.submit (h.commits c (List.mem_of_getElem? hc)) hstep
  | land i =>
    obtain ⟨c, hc, hstep⟩ := Option.bind_eq_some_iff.mp hstep
    exact h.land (h.commits c (List.mem_of_getElem? hc)) (hq c hc) hstep
  | lose i =>
    obtain ⟨c, hc, hstep⟩ := Option.bind_eq_some_iff.mp hstep
    rw [stepCommit] at hstep
    split at hstep
    · cases hstep
      exact h.eraseCommit i
    · cases hstep
  | fail i =>
    obtain ⟨c, hc, hstep⟩ := Option.bind_eq_some_iff.mp hstep
    cases hstep
    exact (h.eraseCommit i).clearHeadView
  | fold i =>
    obtain ⟨c, hc, hstep⟩ := Option.bind_eq_some_iff.mp hstep
    exact h.fold (h.commits c (List.mem_of_getElem? hc)) hstep
  | settle i =>
    obtain ⟨c, hc, hstep⟩ := Option.bind_eq_some_iff.mp hstep
    exact h.settle (h.commits c (List.mem_of_getElem? hc)) (fun n => hq c n hc) hstep
  | finish i =>
    obtain ⟨c, hc, hstep⟩ := Option.bind_eq_some_iff.mp hstep
    exact h.finish (h.commits c (List.mem_of_getElem? hc)) hstep

theorem coherent_start {s : Store} (hs : s.Consistent) : Coherent { states := [s] } where
  nonempty := List.cons_ne_nil _ _
  history := ⟨fun t ht => Option.some.inj ht ▸ hs, List.isChain_singleton _⟩
  settled m hm := by cases hm
  returned m hm := by cases hm
  held view hview := by cases hview
  halves := ⟨fun head records hheld => (by cases hheld), fun head records hheld => (by cases hheld)⟩
  reads r hr := by cases hr
  commits c hc := by cases hc
  answers a ha := by cases ha

end ViewSystem

open ViewSystem in
/-- In a run whose steps are all orderly, every snapshot call returns the view of a state that includes each
    commit that had returned before the call. -/
theorem snapshot_calls_fresh (s : Store) (hs : s.Consistent) (events : List ViewEvent)
    (horderly : Runs.Throughout ViewSystem.step Orderly { states := [s] } events) :
    Runs.Always ViewSystem.step AnswersFresh { states := [s] } events :=
  Runs.Always.mono (fun h => Coherent.answers h)
    (Runs.always_of_throughout (fun h hq hstep => Coherent.step h hq hstep) (coherent_start hs) horderly)

/-! ## A base read that installs an old view -/

namespace LateBase

open LateInstall (start)

def table (name : String) : EntityRecord :=
  .table
    { tableId := 1, tableUuid := "", beginSnapshot := 1, endSnapshot := none, schemaId := 0
      tableName := name, path := "t", pathIsRelative := true, nextColumnId := 2 }

/-- A member that puts the table under a name and mints a snapshot. -/
def named (name : String) (id : Nat) : Member :=
  { writes := [.current (.entity (.table 1)) (some (table name))]
    minted := some { (default : SnapshotValue) with snapshotId := id } }

/-- A group that creates the table and renames it. -/
def group : List Member := [named "a" 1, named "b" 2]

/-- The `i`th read in flight takes `k` steps. -/
def steps (i k : Nat) : List ViewEvent := List.replicate k (.read i)

/-- The one commit in flight lands the group and returns. -/
def commit : List ViewEvent := [.submit 0 group, .land 0, .fold 0, .settle 0, .finish 0]

/-- A snapshot call opens its session. A commit lands and returns while the call reads. Another call follows. -/
def overlapping : List ViewEvent :=
  List.flatten [[.snapshot, .pin 0], steps 0 3, [.begin, .capture 1], steps 1 10, [.install 1], commit, steps 0 12,
    [.install 0, .snapshot]]

/-- A first transaction begins. A second one begins, commits and returns. The first then reads its base and
    installs the view, and a snapshot call follows. -/
def events : List ViewEvent :=
  List.flatten [[.begin, .begin, .capture 1], steps 1 10, [.install 1], commit, [.capture 0], steps 0 13,
    [.install 0, .snapshot]]

theorem start_consistent : start.Consistent where
  keyed k r hr := by cases hr
  snapshots := LateInstall.start_keyed.snapshots
  recorded id _ := ExtTreeMap.getElem?_empty

theorem foldable_put (name : String) : Foldable [(.entity (.table 1), some (table name))] :=
  ⟨List.nodup_singleton _, by simp [table, EntityRecord.key], by simp [isMappingDelete]⟩

/-- A put of the table settles every name of a view that has no other entity. -/
theorem fits_put {v : CatalogSnapshot} {rest : List (CurrentKey × Option EntityRecord)} (name : String)
    (hv : ∀ k, k ≠ .entity (.table 1) → v.get k = none)
    (hrest : Fits (v.applyCurrent [(.entity (.table 1), some (table name))]) rest) :
    Fits v ((.entity (.table 1), some (table name)) :: rest) := by
  have hput := foldable_put name
  refine .part hput (by simp [table, isLive, EntityRecord.lifecycle, included])
    (fun n => List.pairwise_singleton _ _) (fun n m hm => ?_) hrest
  obtain rfl : m = .entity (.table 1) := by
    by_contra hne
    have hheld := hm.1
    rw [Set.mem_ofPred_eq, ← directory_applyCurrent hput] at hheld
    simp [directory, get_applyCurrent_of_not_mem hput, hne, hv] at hheld
  exact ⟨by simp [nameWrites], .inl (by simp [nameWrites])⟩

/-- The group fits a view without records. -/
theorem groupFits {base : CatalogSnapshot} (hbase : ∀ k, base.get k = none) : GroupFits base group where
  fits := by
    refine fits_put "a" (fun k _ => hbase k) (fits_put "b" (fun k hk => ?_) .nil)
    rw [get_applyCurrent_of_not_mem (foldable_put "a") (by simpa using hk), hbase]
  kept := by simp [group, named]

/-- What the steps of `overlapping` find: every read is pinned to the first state, which has no records; nothing has
    settled when the commit reads its base or settles. -/
def found (sys : ViewSystem) : ViewEvent → Bool
  | .read i => sys.reads[i]?.all fun
    | .reading _ n _ _ _ => sys.states[n]?.all (·.head.snapshotId = 0)
    | _ => true
  | .capture _ => sys.settled.isEmpty
  | .land i => sys.commits[i]?.all (·.headAdvanced)
  | .settle i => sys.settled.isEmpty && sys.commits[i]?.all fun c =>
    c.members = group && sys.states[c.pinned]?.all (·.current.isEmpty)
  | _ => true

theorem found_overlapping : ∀ i < overlapping.length, ∀ e ∈ overlapping[i]?,
    (Runs.run ViewSystem.step { states := [start] } (overlapping.take i)).all (found · e) := by
  decide +kernel

theorem overlapping_orderly : Runs.Throughout ViewSystem.step ViewSystem.Orderly { states := [start] } overlapping := by
  refine Runs.throughout_of_inv (fun h hq hstep => ViewSystem.Coherent.step h hq hstep)
    (ViewSystem.coherent_start start_consistent) fun i e sys he hrun h => ?_
  have hfound := found_overlapping i (List.getElem?_eq_some_iff.mp he).1 e he
  rw [hrun, Option.all_some] at hfound
  cases e with
  | read j =>
    intro forCommit n epoch returned prog s behind hr hs _ hreplays
    simp only [found, hr, hs, Option.all_some, decide_eq_true_iff] at hfound
    exact absurd hreplays.moved (by rw [hfound]; exact Nat.not_lt_zero _)
  | capture j =>
    intro n _ m hm
    rw [found, List.isEmpty_iff] at hfound
    rw [hfound] at hm
    cases hm
  | land j =>
    intro c hc hkeeps
    rw [found, hc, Option.all_some, hkeeps] at hfound
    cases hfound
  | settle j =>
    intro c n hc _ _
    obtain ⟨s, hs, hshows⟩ := (h.commits c (List.mem_of_getElem? hc)).base
    simp only [found, hc, hs, Option.all_some, Bool.and_eq_true, List.isEmpty_iff, decide_eq_true_iff] at hfound
    obtain ⟨hsettled, hmembers, hempty⟩ := hfound
    rw [hsettled, hmembers]
    refine ⟨fun m hm => (by cases hm), fun _ => groupFits fun k => ?_⟩
    rw [hshows.get, ExtTreeMap.isEmpty_iff.mp hempty, ExtTreeMap.getElem?_empty]
    rfl
  | _ => trivial

/-- `snapshot_calls_fresh` at a group that lands while a snapshot call reads. -/
theorem snapshot_calls_fresh_overlapping :
    Runs.Always ViewSystem.step ViewSystem.AnswersFresh { states := [start] } overlapping ∧
      (Runs.run ViewSystem.step { states := [start] } overlapping).map (fun sys =>
        sys.answers.map fun a => (a.returned, a.view.viewHead)) = some [([], ⟨0, 0⟩), ([1], ⟨2, 2⟩)] :=
  ⟨snapshot_calls_fresh start start_consistent overlapping overlapping_orderly, by decide +kernel⟩

/-- The first transaction installs a view without the commit that has returned, and the snapshot call gets it. -/
theorem snapshot_call_lacks_returned_commit :
    ¬ Runs.Always ViewSystem.step ViewSystem.AnswersFresh { states := [start] } events := by
  intro h
  have hfacts : (Runs.run ViewSystem.step { states := [start] } events).map (fun sys =>
      (sys.answers.map fun a => (a.returned, a.view.batchSeq), sys.states.map (·.head.batchSeq))) =
        some ([([1], 0)], [0, 2]) := by decide +kernel
  obtain ⟨sys, hrun, heq⟩ := Option.map_eq_some_iff.mp hfacts
  obtain ⟨hanswers, hstates⟩ := Prod.mk.inj heq
  obtain ⟨a, hsingle, ha⟩ := List.map_eq_singleton_iff.mp hanswers
  obtain ⟨hreturned, hseq⟩ := Prod.mk.inj ha
  obtain ⟨n, s, hs, ⟨full, hfull, -, -, hview⟩, hn⟩ := h.run hrun a (by rw [hsingle]; exact List.mem_singleton_self a)
  obtain ⟨-, snapshot, -, rfl⟩ := Store.of_materialize hfull
  -- The one state with the commit has batch number 2.
  have hone : 1 ≤ n := hn 1 (by rw [hreturned]; exact List.mem_singleton_self 1)
  have hget : (sys.states.map (·.head.batchSeq))[n]? = some 0 := by
    rw [List.getElem?_map, hs, Option.map_some, ← hseq, hview, Store.viewAt_batchSeq]
  rw [hstates] at hget
  match n, hone, hget with
  | 1, _, hget => cases hget
  | n + 2, _, hget => cases hget

end LateBase

end Moraine
