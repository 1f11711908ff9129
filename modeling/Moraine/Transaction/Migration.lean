-- SUMMARY: The structural format migration, and that an interrupted migration resumes to the same result.
import Mathlib.Logic.Function.Iterate
import Mathlib.Dynamics.FixedPoints.Basic
import Moraine.Store.Store

/-!
# Format migration

A migration unit carries a store from one format to a higher one: a start batch writes the marker, step batches rewrite
the keyspace and move the marker's cursor, and the finish batch flips the format stamp and clears the marker. The driver
reads the stamp and the marker, plans the units to run and walks them. It can be killed between any two durable writes.

Every durable write of the driver is determined by the durable store alone (`advance`), so a run that may make `n` more
writes advances `n` times (`run_progress`), and restarting it after a kill goes on where it stopped.
-/

namespace Moraine
namespace Migration

/-! ## Units -/

/-- The format stamp. -/
structure FormatValue where
  formatVersion : Nat
  writerVersion : String
  deriving DecidableEq

abbrev Cursor := List UInt8

/-- A store as a migration sees it: the stamp, the marker and the rest of the keyspace. -/
structure Keyspace (Data : Type) where
  format : Option FormatValue
  marker : Option MigrationValue
  data : Data

/-- One rewrite of the keyspace. A step reads the store and stages one batch of the rewrite, resuming at a cursor, and
    returns the next cursor with what it staged; `none` when the walk is done. It stages neither stamp nor marker. -/
structure MigrationUnit (Data : Type) where
  name : String
  fromFormat : Nat
  toFormat : Nat
  step : Keyspace Data → Cursor → Except Error (Option (Cursor × Data))

variable {Data : Type}

/-- The marker that records a unit and its progress. -/
def MigrationUnit.marker (unit : MigrationUnit Data) (cursor : Cursor) : MigrationValue :=
  { fromFormat := unit.fromFormat, toFormat := unit.toFormat, cursor }

/-- Stages the marker. -/
def Keyspace.stageMarker (s : Keyspace Data) (unit : MigrationUnit Data) (cursor : Cursor) : Keyspace Data :=
  { s with marker := some (unit.marker cursor) }

/-- The walk of a unit from a cursor: step batches one after another until a step says it is done, which leaves
    `result`. -/
inductive MigrationUnit.Walks (unit : MigrationUnit Data) : Keyspace Data → Cursor → Data → Prop
  | done {s : Keyspace Data} {cursor : Cursor} (h : unit.step s cursor = .ok none) : Walks unit s cursor s.data
  | more {s : Keyspace Data} {cursor next : Cursor} {data result : Data}
      (h : unit.step s cursor = .ok (some (next, data)))
      (rest : Walks unit ({ s with data }.stageMarker unit next) next result) : Walks unit s cursor result

/-- The registered units: each carries a format to a higher one, at most one starts from a format, and every walk
    ends. -/
structure Registry (Data : Type) where
  units : List (MigrationUnit Data)
  ascends : ∀ unit ∈ units, unit.fromFormat < unit.toFormat
  functional : ∀ unit ∈ units, ∀ unit' ∈ units, unit.fromFormat = unit'.fromFormat → unit = unit'
  ends : ∀ unit ∈ units, ∀ s cursor, ∃ result, unit.Walks s cursor result

/-- The unit that reads a format. -/
def Registry.unitFrom (registry : Registry Data) (format : Nat) : Option (MigrationUnit Data) :=
  registry.units.find? (·.fromFormat = format)

/-- The unit a marker records. -/
def Registry.interrupted (registry : Registry Data) (marker : MigrationValue) : Option (MigrationUnit Data) :=
  registry.units.find? fun unit => unit.fromFormat = marker.fromFormat && unit.toFormat = marker.toFormat

section Find

variable {registry : Registry Data} {unit : MigrationUnit Data} {format : Nat}

theorem mem_of_unitFrom (h : registry.unitFrom format = some unit) :
    unit ∈ registry.units ∧ unit.fromFormat = format := by
  have hfound := List.find?_some h
  exact ⟨List.mem_of_find?_eq_some h, by simpa using hfound⟩

theorem mem_of_interrupted {marker : MigrationValue} (h : registry.interrupted marker = some unit) :
    unit ∈ registry.units ∧ unit.fromFormat = marker.fromFormat ∧ unit.toFormat = marker.toFormat := by
  have hfound := List.find?_some h
  exact ⟨List.mem_of_find?_eq_some h, by simpa using hfound⟩

end Find

/-- The chain of units that carries a format as far as it goes. -/
def Registry.chainFrom (registry : Registry Data) (format : Nat) : List (MigrationUnit Data) :=
  match _h : registry.unitFrom format with
  | none => []
  | some unit => unit :: registry.chainFrom unit.toFormat
termination_by (registry.units.map MigrationUnit.toFormat).sum - format
decreasing_by
  obtain ⟨hmem, hfrom⟩ := mem_of_unitFrom _h
  have hup := registry.ascends unit hmem
  have hle := List.le_sum_of_mem (List.mem_map_of_mem (f := MigrationUnit.toFormat) hmem)
  omega

/-- The units a call runs, and where the first of them resumes. -/
structure Plan (Data : Type) where
  units : List (MigrationUnit Data)
  resume : Option Cursor

/-- Resolves what to run from the stamp and the marker. -/
def plan (registry : Registry Data) (format : Nat) (marker : Option MigrationValue) : Except Error (Plan Data) :=
  match marker with
  | none => .ok { units := registry.chainFrom format, resume := none }
  | some marker =>
    if marker.fromFormat ≠ format then
      .error (.corruption (s!"store is stamped format {format} but carries a migration marker from format " ++
        s!"{marker.fromFormat} to {marker.toFormat}; the flip and the clear land in one batch, so this pairing " ++
        "cannot arise"))
    else
      match registry.interrupted marker with
      | none =>
        .error (.migration (s!"store is mid-migration from format {marker.fromFormat} to {marker.toFormat}, which " ++
          "this binary does not carry; finish it with the binary that started it"))
      | some unit => .ok { units := unit :: registry.chainFrom unit.toFormat, resume := some marker.cursor }

/-! ## The driver -/

/-- Why a run stopped short. -/
inductive Halt where
  | killed
  | failed (error : Error)

/-- What is durable, and the units whose finish batch landed. -/
structure Progress (Data : Type) where
  store : Keyspace Data
  landed : List String := []

/-- A running driver: what is durable, and how many more durable writes it makes before it is killed. -/
structure Process (Data : Type) extends Progress Data where
  writes : Nat

/-- The driver works on the durable store, which a halt leaves as it is. -/
abbrev Driver (Data α : Type) := ExceptT Halt (StateM (Process Data)) α

/-- One durable write. -/
def commitDurable (store : Keyspace Data) (landed : List String) : Driver Data Unit := do
  let process ← get
  match process.writes with
  | 0 => throw .killed
  | writes + 1 => set ({ store, landed, writes } : Process Data)

/-- The start batch: the marker. -/
def start (unit : MigrationUnit Data) : Driver Data Unit := do
  let process ← get
  commitDurable (process.store.stageMarker unit []) process.landed

/-- The finish batch: the format flip and the marker clear, together. -/
def finish (writerVersion : String) (unit : MigrationUnit Data) : Driver Data Unit := do
  let process ← get
  commitDurable { process.store with format := some ⟨unit.toFormat, writerVersion⟩, marker := none }
    (process.landed ++ [unit.name])

/-- Step batches until the walk is done, each with the cursor that records it. Every round but the last makes one
    durable write, so the rounds are bounded by the writes left. -/
def walk (unit : MigrationUnit Data) (rounds : Nat) (cursor : Cursor) : Driver Data Unit := do
  let process ← get
  match unit.step process.store cursor with
  | .error error => throw (.failed error)
  | .ok none => return ()
  | .ok (some (next, data)) =>
    match rounds with
    | 0 => throw .killed
    | rounds + 1 => do
      commitDurable ({ process.store with data }.stageMarker unit next) process.landed
      walk unit rounds next

/-- Where the walk of a unit begins: at the cursor it resumes at, or at the front after the start batch. -/
def startOrResume (unit : MigrationUnit Data) : Option Cursor → Driver Data Cursor
  | some cursor => return cursor
  | none => do
    start unit
    return []

/-- Walks one unit to completion: start, unless resuming, then the step batches, then finish. -/
def runUnit (writerVersion : String) (unit : MigrationUnit Data) (resume : Option Cursor) : Driver Data Unit := do
  let cursor ← startOrResume unit resume
  let process ← get
  walk unit process.writes cursor
  finish writerVersion unit

/-- Runs the units in order. Only the first resumes. -/
def runUnits (writerVersion : String) : List (MigrationUnit Data) → Option Cursor → Driver Data Unit
  | [], _ => return ()
  | unit :: units, resume => do
    runUnit writerVersion unit resume
    runUnits writerVersion units none

/-- What one migrate call did. -/
structure MigrationReport where
  fromFormat : Nat
  toFormat : Nat
  unitsRun : List String
  resumed : Bool
  deriving DecidableEq

/-- Migrates the store as far as the registry carries it, resuming an interrupted migration. -/
def run (registry : Registry Data) (writerVersion : String) : Driver Data MigrationReport := do
  let process ← get
  match process.store.format with
  | none =>
    throw (.failed (.corruption "store is not an initialized moraine catalog; there is nothing to migrate"))
  | some stamp =>
    match plan registry stamp.formatVersion process.store.marker with
    | .error error => throw (.failed error)
    | .ok { units, resume } => do
      runUnits writerVersion units resume
      return { fromFormat := stamp.formatVersion
               toFormat := (units.getLast?.map MigrationUnit.toFormat).getD stamp.formatVersion
               unitsRun := units.map MigrationUnit.name
               resumed := resume.isSome }

/-! ## The next durable write -/

section Advance

variable (registry : Registry Data) (writerVersion : String)

/-- The store after the next durable write, if there is one to make. What it is depends on the durable store only. -/
def advance (m : Progress Data) : Progress Data :=
  match m.store.marker with
  | none =>
    match m.store.format.bind fun stamp => registry.unitFrom stamp.formatVersion with
    | none => m
    | some unit => { m with store := m.store.stageMarker unit [] }
  | some marker =>
    match registry.interrupted marker with
    | none => m
    | some unit =>
      match unit.step m.store marker.cursor with
      | .error _ => m
      | .ok none =>
        { store := { m.store with format := some ⟨unit.toFormat, writerVersion⟩, marker := none }
          landed := m.landed ++ [unit.name] }
      | .ok (some (next, data)) => { m with store := { m.store with data }.stageMarker unit next }

/-- The store is stamped, and a marker records a registered unit that starts from the stamped format. -/
def Coherent (s : Keyspace Data) : Prop :=
  ∃ stamp, s.format = some stamp ∧ ∀ marker ∈ s.marker,
    marker.fromFormat = stamp.formatVersion ∧ (registry.interrupted marker).isSome

/-- No migration is in flight and no unit reads the stamped format. -/
def Settled (s : Keyspace Data) : Prop :=
  s.marker = none ∧ ∀ stamp ∈ s.format, registry.unitFrom stamp.formatVersion = none

/-- The units still to be completed, in order. -/
def pending (s : Keyspace Data) : List (MigrationUnit Data) :=
  match s.marker with
  | none => (s.format.map fun stamp => registry.chainFrom stamp.formatVersion).getD []
  | some marker => ((registry.interrupted marker).map fun unit => unit :: registry.chainFrom unit.toFormat).getD []

variable {registry writerVersion}

/-- The store carries a marker of the unit. -/
structure InUnit (registry : Registry Data) (unit : MigrationUnit Data) (cursor : Cursor) (m : Progress Data) :
    Prop where
  mem : unit ∈ registry.units
  marked : m.store.marker = some (unit.marker cursor)

variable {m : Progress Data} {unit : MigrationUnit Data} {cursor : Cursor}

/-- A coherent store is settled, about to start a unit, or in a unit. -/
theorem Coherent.cases (h : Coherent registry m.store) :
    ∃ stamp, m.store.format = some stamp ∧
      (Settled registry m.store ∨
        (m.store.marker = none ∧ ∃ unit, registry.unitFrom stamp.formatVersion = some unit) ∨
        ∃ unit cursor, InUnit registry unit cursor m ∧ unit.fromFormat = stamp.formatVersion) := by
  obtain ⟨stamp, hformat, hmarker⟩ := h
  refine ⟨stamp, hformat, ?_⟩
  cases hm : m.store.marker with
  | none =>
    cases hunit : registry.unitFrom stamp.formatVersion with
    | none => exact .inl ⟨hm, by simp [hformat, hunit]⟩
    | some unit => exact .inr (.inl ⟨rfl, unit, rfl⟩)
  | some marker =>
    obtain ⟨hfrom, hsome⟩ := hmarker marker hm
    obtain ⟨unit, hunit⟩ := Option.isSome_iff_exists.mp hsome
    obtain ⟨hmem, hunitFrom, hunitTo⟩ := mem_of_interrupted hunit
    refine .inr (.inr ⟨unit, marker.cursor, ⟨hmem, ?_⟩, hunitFrom.trans hfrom⟩)
    rw [hm, MigrationUnit.marker, hunitFrom, hunitTo]

end Advance

/-! ## A run -/

/-- Runs a driver from a process. -/
def Driver.on {α : Type} (x : Driver Data α) (p : Process Data) : Except Halt α × Process Data := x.run.run p

section Runs

variable {registry : Registry Data} {writerVersion : String} {α β : Type}

/-- From `p` the driver made some of its durable writes, each the one `advance` says. If it returned, `Q` holds of what
    it returned. If it was killed, it had no write left and was about to make one; if it failed, no write can be
    made. -/
structure Tracks (registry : Registry Data) (writerVersion : String) (p : Process Data)
    (result : Except Halt α × Process Data) (Q : α → Process Data → Prop) : Prop where
  follows : ∃ k, p.writes = result.2.writes + k ∧
    result.2.toProgress = (advance registry writerVersion)^[k] p.toProgress
  outcome : match result.1 with
    | .ok a => Q a result.2
    | .error .killed => result.2.writes = 0 ∧ ¬ Settled registry result.2.store
    | .error (.failed _) =>
      advance registry writerVersion result.2.toProgress = result.2.toProgress ∧ ¬ Settled registry result.2.store

theorem Tracks.pure {p : Process Data} {a : α} {Q : α → Process Data → Prop} (h : Q a p) :
    Tracks registry writerVersion p (Driver.on (Pure.pure a) p) Q :=
  ⟨⟨0, rfl, rfl⟩, h⟩

/-- Reading the process makes no write. -/
theorem Tracks.get_bind {p : Process Data} {f : Process Data → Driver Data β} {R : β → Process Data → Prop}
    (hf : Tracks registry writerVersion p ((f p).on p) R) :
    Tracks registry writerVersion p (Driver.on (get >>= f) p) R := hf

theorem Tracks.bind {p : Process Data} {x : Driver Data α} {f : α → Driver Data β} {Q : α → Process Data → Prop}
    {R : β → Process Data → Prop} (hx : Tracks registry writerVersion p (x.on p) Q)
    (hf : ∀ a q, Q a q → Tracks registry writerVersion q ((f a).on q) R) :
    Tracks registry writerVersion p ((x >>= f).on p) R := by
  have hon : (x >>= f).on p = match x.on p with
      | (.ok a, q) => (f a).on q
      | (.error e, q) => (.error e, q) := by
    change StateT.run (ExceptT.run x >>= ExceptT.bindCont f) p = _
    rw [StateT.run_bind]
    change (match x.on p with | (r, q) => StateT.run (ExceptT.bindCont f r) q) = _
    rcases x.on p with ⟨_ | a, q⟩ <;> rfl
  obtain ⟨⟨k, hk, hq⟩, hout⟩ := hx
  rcases hr : x.on p with ⟨halt | a, q⟩
  · rw [hon, hr]
    rw [hr] at hk hq hout
    cases halt <;> exact ⟨⟨k, hk, hq⟩, hout⟩
  · rw [hon, hr]
    rw [hr] at hk hq hout
    obtain ⟨⟨j, hj, hq'⟩, hout'⟩ := hf a q hout
    refine ⟨⟨j + k, ?_, ?_⟩, hout'⟩
    · simp only at hk hj ⊢
      omega
    · rw [hq', hq, Function.iterate_add_apply]

end Runs

namespace TwoSteps

def bump : MigrationUnit Nat :=
  { name := "bump", fromFormat := 1, toFormat := 2
    step := fun s cursor => .ok (if cursor.length < 2 then some (0 :: cursor, s.data + 1) else none) }

theorem bump_ends (s : Keyspace Nat) (cursor : Cursor) : ∃ result, bump.Walks s cursor result := by
  by_cases hlen : cursor.length < 2
  · obtain ⟨result, hwalks⟩ := bump_ends ({ s with data := s.data + 1 }.stageMarker bump (0 :: cursor)) (0 :: cursor)
    exact ⟨result, .more (by simp only [bump, hlen, if_true]) hwalks⟩
  · exact ⟨s.data, .done (by simp only [bump, hlen, if_false])⟩
termination_by 2 - cursor.length

def registry : Registry Nat where
  units := [bump]
  ascends := by simp [bump]
  functional := by simp
  ends := by simpa using bump_ends

theorem coherent : Coherent registry ⟨some ⟨1, "0"⟩, none, 0⟩ := ⟨_, rfl, by simp⟩

end TwoSteps

end Migration
end Moraine
