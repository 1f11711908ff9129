-- SUMMARY: Staged index builds: the buffer that cuts a pass into bounded steps, and the bytes a step's entries stage.
import Moraine.Base.Commands
import Moraine.Catalog.ScopedBatches
import Moraine.Store.KeyEncoding
import Moraine.Transaction.VerbEffects

/-!
# Build steps

A staged build derives its entries in one pass over the table's inline rows and files, and commits them as it goes.
A buffer holds the entries of the next step. It is flushed before an entry that would exceed one of the step's two
bounds, and once more at the end. With each step goes the position of the last row that the pass had been through.

The byte bound is kept by nominal sizes, which count every byte of a value once. A staged key is framed twice, each
column's bytes on their own and then the key as a field of the store key, so a byte that is escaped by both framings
takes four.
-/

namespace Moraine

open Std (ExtTreeMap ExtTreeSet)
open OrdMap Commands

/-! ## Sizes -/

/-- The key and value bytes of an entry in which nothing is escaped. -/
def indexEntryBytes (values : List (Option IndexKeyValue)) : Nat :=
  INDEX_ENTRY_PREFIX_LEN + nominalKeyBytes values + 8

def IndexEntry.nominalBytes (entry : IndexEntry) : Nat := indexEntryBytes entry.values

namespace StagedIndexEntry

def entryKey (e : StagedIndexEntry) : Key :=
  if e.unique then .index (.unique e.indexId e.key) else .index (.multi e.indexId e.key e.rowId)

/-- A unique entry's value is the row that holds it. Any other entry has the row in its key. -/
def entryValue (e : StagedIndexEntry) : List UInt8 := if e.unique then beBytes e.rowId 8 else []

/-- The key and value bytes of the entry's put. -/
def stagedBytes (e : StagedIndexEntry) : Nat := e.entryKey.encode.length + e.entryValue.length

end StagedIndexEntry

/-- How many bytes of a string framing escapes. -/
def escaped (raw : List UInt8) : Nat := raw.countP (· ≤ 1)

/-- How many bytes of a string framing escapes once they are complemented. -/
def escapedFlipped (raw : List UInt8) : Nat := raw.countP (0xFE ≤ ·)

theorem length_frameBytes (raw : List UInt8) : (frameBytes raw).length = raw.length + escaped raw + 1 := by
  induction raw with
  | nil => rfl
  | cons b raw ih =>
    simp only [frameBytes, escaped, List.length_append, List.flatMap_cons, List.append_assoc, List.length_cons,
      List.countP_cons] at ih ⊢
    by_cases hb : b ≤ 1
    · simp only [hb, if_true, decide_true, List.length_cons, List.length_nil] at ih ⊢
      omega
    · simp only [hb, if_false, decide_false, List.length_cons, List.length_nil, Bool.false_eq_true] at ih ⊢
      omega

/-- The escape byte, an escaped byte and the terminator are all escaped by a second framing. -/
theorem escaped_frameBytes (raw : List UInt8) : escaped (frameBytes raw) = 2 * escaped raw + 1 := by
  induction raw with
  | nil => rfl
  | cons b raw ih =>
    simp only [frameBytes, escaped, List.flatMap_cons, List.append_assoc, List.countP_append, List.countP_cons] at ih ⊢
    by_cases hb : b ≤ 1
    · simp [hb] at ih ⊢
      omega
    · simp [hb] at ih ⊢
      omega

theorem escapedFlipped_frameBytes (raw : List UInt8) : escapedFlipped (frameBytes raw) = escapedFlipped raw := by
  induction raw with
  | nil => rfl
  | cons b raw ih =>
    simp only [frameBytes, escapedFlipped, List.flatMap_cons, List.append_assoc, List.countP_append,
      List.countP_cons] at ih ⊢
    by_cases hb : b ≤ 1
    · have hlow : ¬ (0xFE : UInt8) ≤ b := by
        rw [UInt8.le_iff_toNat_le] at hb ⊢
        exact fun h => absurd (h.trans hb) (by decide)
      simp [hb, hlow] at ih ⊢
      omega
    · simp [hb] at ih ⊢
      omega

theorem escaped_complement (raw : List UInt8) : escaped (raw.map (~~~ ·)) = escapedFlipped raw := by
  rw [escaped, List.countP_map]
  refine List.countP_congr fun b _ => ?_
  have hb := b.toNat_lt
  simp only [Function.comp_apply, decide_eq_true_eq, UInt8.le_iff_toNat_le, UInt8.toNat_not]
  change 256 - 1 - b.toNat ≤ 1 ↔ 254 ≤ b.toNat
  omega

namespace OrderedColumn

/-- What a column adds to the bytes of a staged entry. -/
def weight (column : OrderedColumn) : Nat := (columnBytes column).length + escaped (columnBytes column)

/-- What a column adds to the nominal bytes. -/
def nominal (column : OrderedColumn) : Nat :=
  match column.value with
  | some value => 1 + value.encodedLen + 1
  | none => 1

/-- What escaping adds to a column's bytes: thrice for a byte that both framings escape. -/
def escapes (column : OrderedColumn) : Nat :=
  match column.value, column.direction with
  | none, _ => 0
  | some value, .ascending => 3 * escaped value.encode
  | some value, .descending => escaped value.encode + escapedFlipped value.encode

/-- What twice the nominal bytes leave for escaping. A descending column's terminator is not escaped. -/
def allowance (column : OrderedColumn) : Nat :=
  match column.value, column.direction with
  | none, _ => 0
  | some value, .ascending => value.encodedLen
  | some value, .descending => value.encodedLen + 1

theorem weight_add_allowance (column : OrderedColumn) :
    column.weight + column.allowance = 2 * column.nominal + column.escapes := by
  obtain ⟨value, direction, nulls⟩ := column
  cases value with
  | none => cases nulls <;> rfl
  | some value =>
    have hflag : escaped [(nullFlags nulls).2] = 1 := by cases nulls <;> rfl
    cases direction with
    | ascending =>
      have hbytes : columnBytes ⟨some value, .ascending, nulls⟩ =
          [(nullFlags nulls).2] ++ frameBytes value.encode := rfl
      have hescaped : escaped (columnBytes ⟨some value, .ascending, nulls⟩) = 1 + (2 * escaped value.encode + 1) := by
        rw [hbytes, escaped, List.countP_append, ← escaped, ← escaped, hflag, escaped_frameBytes]
      rw [weight, hescaped, hbytes, List.length_append, length_frameBytes, value.length_encode]
      simp only [List.length_singleton, allowance, nominal, escapes]
      omega
    | descending =>
      have hbytes : columnBytes ⟨some value, .descending, nulls⟩ =
          [(nullFlags nulls).2] ++ (frameBytes value.encode).map (~~~ ·) := rfl
      have hescaped : escaped (columnBytes ⟨some value, .descending, nulls⟩) = 1 + escapedFlipped value.encode := by
        rw [hbytes, escaped, List.countP_append, ← escaped, ← escaped, hflag, escaped_complement,
          escapedFlipped_frameBytes]
      rw [weight, hescaped, hbytes, List.length_append, List.length_map, length_frameBytes, value.length_encode]
      simp only [List.length_singleton, allowance, nominal, escapes]
      omega

theorem nominal_le_weight (column : OrderedColumn) : column.nominal ≤ column.weight := by
  have hbalance := column.weight_add_allowance
  obtain ⟨value, direction, nulls⟩ := column
  cases value with
  | none => simp only [nominal, allowance, escapes] at hbalance ⊢; omega
  | some value => cases direction <;> simp only [nominal, allowance, escapes] at hbalance ⊢ <;> omega

end OrderedColumn

/-- The columns whose encodings an entry's key is made of. -/
def keyColumns (values : List (Option IndexKeyValue)) (directions : List Direction) (nulls : List NullOrder) :
    List OrderedColumn :=
  values.zipIdx.map fun (value, index) =>
    { value
      direction := directions[index]?.getD .ascending
      nulls := nulls[index]?.getD .last }

/-- What escaping adds to the columns fits into twice the entry's nominal size. The other seventeen bytes are what
    the entry's fixed part leaves. -/
def EscapesFit (columns : List OrderedColumn) : Prop :=
  (columns.map OrderedColumn.escapes).sum ≤ (columns.map OrderedColumn.allowance).sum + 17

theorem eq_of_encodeOrderedValues {values : List (Option IndexKeyValue)} {directions : List Direction}
    {nulls : List NullOrder} {key : CanonicalKey} (h : encodeOrderedValues values directions nulls = .ok key) :
    key = (keyColumns values directions nulls).flatMap columnBytes :=
  (encodeOrderedKey_eq_ok.mp h).2.2.symm

theorem nominalKeyBytes_eq (values : List (Option IndexKeyValue)) (directions : List Direction)
    (nulls : List NullOrder) :
    nominalKeyBytes values = ((keyColumns values directions nulls).map OrderedColumn.nominal).sum := by
  rw [keyColumns, List.map_map, nominalKeyBytes]
  conv_lhs => rw [← List.zipIdx_map_fst 0 values, List.map_map]
  rfl

theorem stagedBytes_eq {e : StagedIndexEntry} {columns : List OrderedColumn}
    (h : e.key = columns.flatMap columnBytes) :
    e.stagedBytes = 19 + (columns.map OrderedColumn.weight).sum := by
  have hframe : (frameBytes e.key).length = (columns.map OrderedColumn.weight).sum + 1 := by
    rw [length_frameBytes, h, escaped, List.length_flatMap, List.countP_flatMap, ← List.sum_map_add]
    rfl
  unfold StagedIndexEntry.stagedBytes StagedIndexEntry.entryKey StagedIndexEntry.entryValue
  cases e.unique <;>
    simp [Key.encode, Key.fields, IndexKey.fields, Field.encode, hframe] <;> omega

/-- The bytes of an entry against its nominal size. -/
theorem stagedBytes_bounds {values : List (Option IndexKeyValue)} {directions : List Direction}
    {nulls : List NullOrder} {e : StagedIndexEntry} (h : encodeOrderedValues values directions nulls = .ok e.key) :
    indexEntryBytes values ≤ e.stagedBytes ∧
      (e.stagedBytes ≤ 2 * indexEntryBytes values ↔ EscapesFit (keyColumns values directions nulls)) := by
  set columns := keyColumns values directions nulls with hcolumns
  have hnominal : indexEntryBytes values = 18 + (columns.map OrderedColumn.nominal).sum := by
    rw [indexEntryBytes, nominalKeyBytes_eq values directions nulls, ← hcolumns]
    change 10 + _ + 8 = _
    omega
  have hstaged : e.stagedBytes = 19 + (columns.map OrderedColumn.weight).sum :=
    stagedBytes_eq (eq_of_encodeOrderedValues h)
  have hle : (columns.map OrderedColumn.nominal).sum ≤ (columns.map OrderedColumn.weight).sum :=
    List.sum_le_sum fun column _ => column.nominal_le_weight
  have hbalance : (columns.map OrderedColumn.weight).sum + (columns.map OrderedColumn.allowance).sum =
      2 * (columns.map OrderedColumn.nominal).sum + (columns.map OrderedColumn.escapes).sum := by
    rw [← List.sum_map_add, ← List.sum_map_mul_left, ← List.sum_map_add]
    exact congrArg List.sum (List.map_congr_left fun column _ => column.weight_add_allowance)
  rw [hnominal, hstaged, EscapesFit]
  omega

/-! ## The buffer of a pass -/

/-- How much one step may commit. The byte bound is a `u64`. -/
structure BuildStep where
  entries : Nat
  bytes : Nat
  fits : bytes ≤ u64Max

/-- A step as it is committed: the entries, whether they are the last ones, and the position it persists. -/
structure SourceStep where
  entries : List IndexEntry
  isFinal : Bool
  source : Option (Nat × Nat)

/-- What a build does with its catalog: it commits steps and reads the table's indexes. Other writers may commit in
    between, and any of it may fail. -/
structure BuildCatalog (σ : Type) where
  commit : SourceStep → EStateM Error σ Unit
  indexesOf : EStateM Error σ (List IndexInfo)

/-- The buffer of one pass. `committed` are the steps whose commits have returned. -/
structure BuildStepBuffer (σ : Type) where
  bound : BuildStep
  entries : List IndexEntry
  nominalBytes : Nat
  pendingSource : Option (Nat × Nat)
  completedEntries : Nat
  peakBufferedEntries : Nat
  catalog : σ
  committed : List SourceStep

/-- The buffer that a pass starts with. A resumed build starts at the position that was persisted last. -/
def BuildStepBuffer.start {σ : Type} (bound : BuildStep) (source : Option (Nat × Nat)) (catalog : σ) :
    BuildStepBuffer σ :=
  { bound, entries := [], nominalBytes := 0, pendingSource := source, completedEntries := 0
    peakBufferedEntries := 0, catalog, committed := [] }

/-- What a pass does with a row: it pushes an entry, which is from a position of a file or from an inline row, or it
    passes over a row of a file that needs none. -/
inductive BuildEvent where
  | push (entry : IndexEntry) (source : Option (Nat × Nat))
  | cover (fileId position : Nat)

section Buffer

variable {σ : Type} (catalog : BuildCatalog σ) (index : Nat)

namespace BuildStepBuffer

def onCatalog {α : Type} (action : EStateM Error σ α) : EStateM Error (BuildStepBuffer σ) α := fun b =>
  match action b.catalog with
  | .ok a catalog => .ok a { b with catalog }
  | .error e catalog => .error e { b with catalog }

def coverSource (fileId position : Nat) : EStateM Error (BuildStepBuffer σ) Unit :=
  modify fun b => { b with pendingSource := some (fileId, position) }

/-- Counts the entries of a committed step, unless a duplicate has poisoned the index. -/
def complete (stepEntries : Nat) (indexes : List IndexInfo) : EStateM Error (BuildStepBuffer σ) Unit :=
  match indexes.find? (·.id == index) with
  | none => throw (.notFound s!"index {index}")
  | some info =>
    if info.state = .poisoned then throw (.constraint s!"index {index} was poisoned by a duplicate value")
    else modify fun b => { b with completedEntries := saturatingAdd b.completedEntries stepEntries }

def flush (isFinal : Bool) : EStateM Error (BuildStepBuffer σ) Unit := do
  let b ← get
  let step : SourceStep := ⟨b.entries, isFinal, b.pendingSource⟩
  modify fun b => { b with entries := [], nominalBytes := 0 }
  onCatalog (catalog.commit step)
  modify fun b => { b with committed := b.committed ++ [step] }
  complete index step.entries.length (← onCatalog catalog.indexesOf)

/-- Whether the next entry has to wait for the next step. A step takes at least one entry. -/
def full (b : BuildStepBuffer σ) (entry : IndexEntry) : Bool :=
  !b.entries.isEmpty && (decide (b.bound.entries ≤ b.entries.length) ||
    decide (b.bound.bytes < saturatingAdd b.nominalBytes entry.nominalBytes))

/-- Takes an entry into the buffer. -/
def add (b : BuildStepBuffer σ) (entry : IndexEntry) (source : Option (Nat × Nat)) : BuildStepBuffer σ :=
  { b with
    nominalBytes := saturatingAdd b.nominalBytes entry.nominalBytes
    entries := b.entries ++ [entry]
    pendingSource := source.or b.pendingSource
    peakBufferedEntries := max b.peakBufferedEntries (b.entries.length + 1) }

def push (entry : IndexEntry) (source : Option (Nat × Nat)) : EStateM Error (BuildStepBuffer σ) Unit := do
  if (← get).full entry then
    flush catalog index false
  modify (·.add entry source)

def handle : BuildEvent → EStateM Error (BuildStepBuffer σ) Unit
  | .push entry source => push catalog index entry source
  | .cover fileId position => coverSource fileId position

def handleAll : List BuildEvent → EStateM Error (BuildStepBuffer σ) Unit
  | [] => pure ()
  | event :: events => do
    handle catalog index event
    handleAll events

/-- A pass: the events, and a last step for what is left. -/
def pass (events : List BuildEvent) : EStateM Error (BuildStepBuffer σ) Unit := do
  handleAll catalog index events
  flush catalog index true

end BuildStepBuffer

end Buffer

/-! ## What a pass has committed -/

/-- The entries that are pushed, in order. -/
def pushedEntries (events : List BuildEvent) : List IndexEntry :=
  events.filterMap fun
    | .push entry _ => some entry
    | .cover .. => none

def BuildEvent.source : BuildEvent → Option (Nat × Nat)
  | .push _ source => source
  | .cover fileId position => some (fileId, position)

/-- The last position among the events. -/
def lastSource (start : Option (Nat × Nat)) (events : List BuildEvent) : Option (Nat × Nat) :=
  events.foldl (fun source event => event.source.or source) start

@[simp] theorem pushedEntries_append (as bs : List BuildEvent) :
    pushedEntries (as ++ bs) = pushedEntries as ++ pushedEntries bs := List.filterMap_append

@[simp] theorem lastSource_append (start : Option (Nat × Nat)) (as bs : List BuildEvent) :
    lastSource start (as ++ bs) = lastSource (lastSource start as) bs := List.foldl_append

def nominalSum (entries : List IndexEntry) : Nat := (entries.map IndexEntry.nominalBytes).sum

theorem nominalSum_snoc (entries : List IndexEntry) (entry : IndexEntry) :
    min (nominalSum (entries ++ [entry])) u64Max =
      saturatingAdd (min (nominalSum entries) u64Max) entry.nominalBytes := by
  simp only [nominalSum, List.map_append, List.sum_append, List.map_singleton, List.sum_singleton, saturatingAdd]
  omega

/-- The bound that a step keeps, with the sum of its sizes as a saturating `u64`. -/
def BuildStep.Admits (bound : BuildStep) (entries : List IndexEntry) : Prop :=
  entries.length ≤ 1 ∨ entries.length ≤ bound.entries ∧ min (nominalSum entries) u64Max ≤ bound.bytes

/-- How a pass that has been through `events` has cut them into steps. The position of each step is the last one of
    some first events, and the entries pushed by these are the ones that the step and those before it commit. -/
structure CutsInto (bound : BuildStep) (start : Option (Nat × Nat)) (events : List BuildEvent)
    (steps : List SourceStep) : Prop where
  admitted : ∀ step ∈ steps, bound.Admits step.entries
  covered : ∀ before step after, steps = before ++ step :: after → ∃ done, done <+: events ∧
    pushedEntries done = (before ++ [step]).flatMap SourceStep.entries ∧ step.source = lastSource start done

section CutsInto

variable {bound : BuildStep} {start : Option (Nat × Nat)} {events : List BuildEvent} {steps : List SourceStep}

theorem CutsInto.nil : CutsInto bound start events [] where
  admitted step hstep := absurd hstep List.not_mem_nil
  covered before step after h := by simp at h

theorem CutsInto.more (h : CutsInto bound start events steps) (more : List BuildEvent) :
    CutsInto bound start (events ++ more) steps where
  admitted := h.admitted
  covered before step after hsteps := by
    obtain ⟨done, hdone, hrest⟩ := h.covered before step after hsteps
    exact ⟨done, hdone.trans (List.prefix_append _ _), hrest⟩

/-- A step that commits all that is left. -/
theorem CutsInto.snoc (h : CutsInto bound start events steps) {step : SourceStep} (hadmits : bound.Admits step.entries)
    (hentries : pushedEntries events = steps.flatMap SourceStep.entries ++ step.entries)
    (hsource : step.source = lastSource start events) : CutsInto bound start events (steps ++ [step]) where
  admitted s hs := by
    rcases List.mem_append.mp hs with hs | hs
    · exact h.admitted s hs
    · rw [List.mem_singleton.mp hs]
      exact hadmits
  covered before s after hsteps := by
    rcases List.eq_nil_or_concat after with rfl | ⟨after, last, rfl⟩
    · obtain ⟨rfl, hs⟩ := List.append_inj' hsteps rfl
      obtain rfl := List.singleton_inj.mp hs
      exact ⟨events, List.prefix_refl _, by simpa using hentries, hsource⟩
    · have hsplit : steps ++ [step] = (before ++ s :: after) ++ [last] := by simpa using hsteps
      exact h.covered before s after (List.append_inj' hsplit rfl).1

end CutsInto

/-- What holds of the buffer while a pass runs. -/
structure Buffered {σ : Type} (start : Option (Nat × Nat)) (events : List BuildEvent) (b : BuildStepBuffer σ) :
    Prop where
  cuts : CutsInto b.bound start events b.committed
  entries : pushedEntries events = b.committed.flatMap SourceStep.entries ++ b.entries
  source : b.pendingSource = lastSource start events
  admitted : b.bound.Admits b.entries
  nominal : b.nominalBytes = min (nominalSum b.entries) u64Max

section Pass

variable {σ : Type} {catalog : BuildCatalog σ} {index : Nat} {start : Option (Nat × Nat)} {events : List BuildEvent}
  {b : BuildStepBuffer σ}

open BuildStepBuffer

theorem Buffered.begin (bound : BuildStep) (c : σ) : Buffered start [] (BuildStepBuffer.start bound start c) where
  cuts := .nil
  entries := rfl
  source := rfl
  admitted := .inl (Nat.zero_le 1)
  nominal := rfl

theorem onCatalog_eq_ok {α : Type} {action : EStateM Error σ α} {b b' : BuildStepBuffer σ} {a : α} :
    onCatalog action b = .ok a b' ↔ ∃ c, action b.catalog = .ok a c ∧ b' = { b with catalog := c } := by
  unfold onCatalog
  cases action b.catalog <;> simp [eq_comm]

theorem onCatalog_eq_error {α : Type} {action : EStateM Error σ α} {b b' : BuildStepBuffer σ} {e : Error} :
    onCatalog action b = .error e b' ↔ ∃ c, action b.catalog = .error e c ∧ b' = { b with catalog := c } := by
  unfold onCatalog
  cases action b.catalog <;> simp [eq_comm]

/-- The step that a flush commits. -/
def BuildStepBuffer.step (b : BuildStepBuffer σ) (isFinal : Bool) : SourceStep :=
  ⟨b.entries, isFinal, b.pendingSource⟩

/-- The buffer after a flush whose commit has returned. -/
def BuildStepBuffer.emptied (b : BuildStepBuffer σ) (isFinal : Bool) (c : σ) (completed : Nat) : BuildStepBuffer σ :=
  { b with
    entries := [], nominalBytes := 0, completedEntries := completed, catalog := c
    committed := b.committed ++ [b.step isFinal] }

theorem eq_of_complete {n : Nat} {indexes : List IndexInfo} {b b' : BuildStepBuffer σ}
    (h : complete index n indexes b = .ok () b') : ∃ completed, b' = { b with completedEntries := completed } := by
  unfold complete at h
  cases hfind : indexes.find? (·.id == index) with
  | none =>
    rw [hfind] at h
    exact absurd h throw_ne_ok
  | some info =>
    rw [hfind] at h
    by_cases hpoisoned : info.state = .poisoned
    · simp only [if_pos hpoisoned] at h
      exact absurd h throw_ne_ok
    · simp only [if_neg hpoisoned] at h
      exact ⟨_, modify_eq_ok.mp h⟩

theorem eq_of_complete_error {n : Nat} {indexes : List IndexInfo} {b b' : BuildStepBuffer σ} {e : Error}
    (h : complete index n indexes b = .error e b') : b' = b := by
  unfold complete at h
  cases hfind : indexes.find? (·.id == index) with
  | none =>
    rw [hfind] at h
    exact (throw_eq_error.mp h).2
  | some info =>
    rw [hfind] at h
    by_cases hpoisoned : info.state = .poisoned
    · simp only [if_pos hpoisoned] at h
      exact (throw_eq_error.mp h).2
    · simp only [if_neg hpoisoned] at h
      exact absurd h modify_ne_error

theorem eq_of_flush {isFinal : Bool} {b b' : BuildStepBuffer σ} (h : flush catalog index isFinal b = .ok () b') :
    ∃ c n, b' = b.emptied isFinal c n := by
  simp only [flush, bind_eq_ok, get_eq_ok, modify_eq_ok, onCatalog_eq_ok] at h
  obtain ⟨_, _, ⟨rfl, rfl⟩, _, _, rfl, _, _, ⟨c, -, rfl⟩, _, _, rfl, indexes, _, ⟨c', -, rfl⟩, h⟩ := h
  obtain ⟨n, rfl⟩ := eq_of_complete h
  exact ⟨c', n, rfl⟩

/-- A flush that fails has committed its step or not. -/
theorem committed_of_flush {isFinal : Bool} {b b' : BuildStepBuffer σ} {e : Error}
    (h : flush catalog index isFinal b = .error e b') :
    b'.bound = b.bound ∧ (b'.committed = b.committed ∨ b'.committed = b.committed ++ [b.step isFinal]) := by
  simp only [flush, bind_eq_error, get_eq_ok, get_ne_error, modify_eq_ok, modify_ne_error, false_or,
    onCatalog_eq_ok, onCatalog_eq_error] at h
  obtain ⟨_, _, ⟨rfl, rfl⟩, _, _, rfl, ⟨c, -, rfl⟩ | ⟨_, _, ⟨c, -, rfl⟩, _, _, rfl, h⟩⟩ := h
  · exact ⟨rfl, .inl rfl⟩
  · rcases h with ⟨c', -, rfl⟩ | ⟨indexes, _, ⟨c', -, rfl⟩, h⟩
    · exact ⟨rfl, .inr rfl⟩
    · obtain rfl := eq_of_complete_error h
      exact ⟨rfl, .inr rfl⟩

theorem Buffered.cuts_step (h : Buffered start events b) (isFinal : Bool) :
    CutsInto b.bound start events (b.committed ++ [b.step isFinal]) :=
  h.cuts.snoc h.admitted h.entries h.source

theorem Buffered.emptied (h : Buffered start events b) (isFinal : Bool) (c : σ) (n : Nat) :
    Buffered start events (b.emptied isFinal c n) where
  cuts := h.cuts_step isFinal
  entries := by
    rw [h.entries]
    simp [BuildStepBuffer.emptied, BuildStepBuffer.step]
  source := h.source
  admitted := .inl (Nat.zero_le 1)
  nominal := rfl

/-- What is left of the invariant when a pass fails. -/
theorem Buffered.cuts_of_flush (h : Buffered start events b) {isFinal : Bool} {b' : BuildStepBuffer σ} {e : Error}
    (hflush : flush catalog index isFinal b = .error e b') : CutsInto b.bound start events b'.committed := by
  obtain ⟨-, heq | heq⟩ := committed_of_flush hflush
  · exact heq ▸ h.cuts
  · exact heq ▸ h.cuts_step isFinal

theorem push_of_room {entry : IndexEntry} {source : Option (Nat × Nat)} (h : b.full entry = false) :
    push catalog index entry source b = (modify (·.add entry source) : EStateM Error (BuildStepBuffer σ) Unit) b := by
  change (if b.full entry then flush catalog index false >>= fun _ => modify (·.add entry source)
    else modify (·.add entry source) : EStateM Error (BuildStepBuffer σ) Unit) b = _
  rw [h]
  rfl

theorem push_of_full {entry : IndexEntry} {source : Option (Nat × Nat)} (h : b.full entry = true) :
    push catalog index entry source b = (flush catalog index false >>= fun _ => modify (·.add entry source)) b := by
  change (if b.full entry then flush catalog index false >>= fun _ => modify (·.add entry source)
    else modify (·.add entry source) : EStateM Error (BuildStepBuffer σ) Unit) b = _
  rw [if_pos h]

/-- An entry goes into a buffer that has room for it. -/
theorem Buffered.add (h : Buffered start events b) {entry : IndexEntry} {source : Option (Nat × Nat)}
    (hroom : b.full entry = false) : Buffered start (events ++ [.push entry source]) (b.add entry source) where
  cuts := h.cuts.more _
  entries := by
    rw [pushedEntries_append, h.entries, List.append_assoc]
    rfl
  source := by
    rw [lastSource_append, ← h.source]
    rfl
  admitted := by
    rcases hentries : b.entries with _ | ⟨first, rest⟩
    · exact .inl (by simp [BuildStepBuffer.add, hentries])
    · have hfits : b.entries.length < b.bound.entries ∧
          saturatingAdd b.nominalBytes entry.nominalBytes ≤ b.bound.bytes := by
        simpa [BuildStepBuffer.full, hentries] using hroom
      refine .inr ⟨by simpa [BuildStepBuffer.add] using hfits.1, ?_⟩
      rw [BuildStepBuffer.add, nominalSum_snoc, ← h.nominal]
      exact hfits.2
  nominal := by
    rw [BuildStepBuffer.add, nominalSum_snoc, ← h.nominal]

/-- An event keeps the invariant, and if it fails what has been committed is still in order. -/
theorem Buffered.handle (h : Buffered start events b) (event : BuildEvent) {b' : BuildStepBuffer σ} :
    (handle catalog index event b = .ok () b' → Buffered start (events ++ [event]) b' ∧ b'.bound = b.bound) ∧
      ∀ e, handle catalog index event b = .error e b' → CutsInto b.bound start (events ++ [event]) b'.committed := by
  cases event with
  | cover fileId position =>
    refine ⟨fun hrun => ?_, fun e hrun => absurd hrun modify_ne_error⟩
    rw [modify_eq_ok.mp hrun]
    refine ⟨⟨h.cuts.more _, ?_, ?_, h.admitted, h.nominal⟩, rfl⟩
    · rw [pushedEntries_append, h.entries]
      simp [pushedEntries]
    · rw [lastSource_append]
      rfl
  | push entry source =>
    cases hfull : b.full entry with
    | false =>
      rw [BuildStepBuffer.handle, push_of_room hfull]
      refine ⟨fun hrun => ?_, fun e hrun => absurd hrun modify_ne_error⟩
      rw [modify_eq_ok.mp hrun]
      exact ⟨h.add hfull, rfl⟩
    | true =>
      rw [BuildStepBuffer.handle, push_of_full hfull]
      refine ⟨fun hrun => ?_, fun e hrun => ?_⟩
      · obtain ⟨_, b₁, hflush, hadd⟩ := bind_eq_ok.mp hrun
        obtain ⟨c, n, rfl⟩ := eq_of_flush hflush
        rw [modify_eq_ok.mp hadd]
        exact ⟨(h.emptied false c n).add rfl, rfl⟩
      · rcases bind_eq_error.mp hrun with hflush | ⟨_, b₁, -, hadd⟩
        · exact (h.cuts_of_flush hflush).more _
        · exact absurd hadd modify_ne_error

theorem Buffered.handleAll (h : Buffered start events b) (more : List BuildEvent) {b' : BuildStepBuffer σ} :
    (handleAll catalog index more b = .ok () b' → Buffered start (events ++ more) b' ∧ b'.bound = b.bound) ∧
      ∀ e, handleAll catalog index more b = .error e b' → CutsInto b.bound start (events ++ more) b'.committed := by
  induction more generalizing b events with
  | nil =>
    refine ⟨fun hrun => ?_, fun e hrun => absurd hrun pure_ne_error⟩
    rw [(pure_eq_ok.mp hrun).2, List.append_nil]
    exact ⟨h, rfl⟩
  | cons event more ih =>
    have happend : events ++ event :: more = (events ++ [event]) ++ more := by simp
    rw [happend]
    refine ⟨fun hrun => ?_, fun e hrun => ?_⟩
    · obtain ⟨_, b₁, hfirst, hrest⟩ := bind_eq_ok.mp hrun
      obtain ⟨h₁, hbound⟩ := (h.handle event).1 hfirst
      rw [← hbound]
      exact (ih h₁).1 hrest
    · rcases bind_eq_error.mp hrun with hfirst | ⟨_, b₁, hfirst, hrest⟩
      · exact ((h.handle event).2 e hfirst).more more
      · obtain ⟨h₁, hbound⟩ := (h.handle event).1 hfirst
        rw [← hbound]
        exact (ih h₁).2 e hrest

/-- A pass that fails has committed some of what was pushed, and one that returns has committed all of it. -/
theorem cuts_of_pass (bound : BuildStep) (start : Option (Nat × Nat)) (c : σ) (events : List BuildEvent)
    {b' : BuildStepBuffer σ} :
    (pass catalog index events (.start bound start c) = .ok () b' → CutsInto bound start events b'.committed ∧
        b'.committed.flatMap SourceStep.entries = pushedEntries events) ∧
      ∀ e, pass catalog index events (.start bound start c) = .error e b' →
        CutsInto bound start events b'.committed := by
  have h : Buffered start [] (BuildStepBuffer.start bound start c) := .begin bound c
  refine ⟨fun hrun => ?_, fun e hrun => ?_⟩
  · obtain ⟨_, b₁, hevents, hflush⟩ := bind_eq_ok.mp hrun
    obtain ⟨h₁, hbound⟩ := (h.handleAll events).1 hevents
    obtain ⟨c', n, rfl⟩ := eq_of_flush hflush
    have hend := h₁.emptied true c' n
    refine ⟨?_, by simpa [BuildStepBuffer.emptied] using hend.entries.symm⟩
    have hcuts := hend.cuts
    change CutsInto b₁.bound start _ _ at hcuts
    rw [hbound] at hcuts
    exact hcuts
  · rcases bind_eq_error.mp hrun with hevents | ⟨_, b₁, hevents, hflush⟩
    · exact (h.handleAll events).2 e hevents
    · obtain ⟨h₁, hbound⟩ := (h.handleAll events).1 hevents
      have hcuts := h₁.cuts_of_flush hflush
      rw [hbound] at hcuts
      exact hcuts

end Pass

/-! ## The pass over a table -/

/-- Filters one file's rows: those that are dead at the pass's snapshot, and those that a build with a row cursor has
    covered. -/
structure BuildFileConsumer where
  fileId : Nat
  deadPositions : Option (ExtTreeSet Nat)
  deadRowIds : Option (ExtTreeSet Nat)
  legacyRowCursor : Option Nat

/-- What the pass does with the row at a position. The position moves over filtered rows too. -/
def BuildFileConsumer.event (consumer : BuildFileConsumer) (ordinal : Nat) (entry : ScopedReadEntry) : BuildEvent :=
  let dead := consumer.deadPositions.any (·.contains ordinal) || consumer.deadRowIds.any (·.contains entry.rowId)
  let covered := consumer.legacyRowCursor.any fun cursor => decide (entry.rowId ≤ cursor)
  if !dead && !covered then .push ⟨entry.rowId, entry.values⟩ (some (consumer.fileId, ordinal))
  else .cover consumer.fileId ordinal

/-- A data file of the table, with its object. -/
structure BackfillFile where
  id : Nat
  recordCount : Nat
  rowIdStart : Option Nat
  fileSizeBytes : Nat
  object : Parquet.File
  reader : Parquet.Reader object

/-- What the leg over the files is told: the index's columns, the rows that are dead, and where the build stands. -/
structure BackfillScope where
  positions : List Nat
  killedPositions : ExtTreeMap Nat (ExtTreeSet Nat)
  killedRowIds : ExtTreeMap Nat (ExtTreeSet Nat)
  fileCursor : Option Nat
  positionCursor : Option Nat
  legacyRowCursor : Option Nat

namespace BackfillScope

def consumer (scope : BackfillScope) (file : BackfillFile) : BuildFileConsumer :=
  { fileId := file.id
    deadPositions := scope.killedPositions[file.id]?
    deadRowIds := scope.killedRowIds[file.id]?
    legacyRowCursor := scope.legacyRowCursor }

/-- The row at which the file's part of the pass begins. -/
def first (scope : BackfillScope) (file : BackfillFile) : Nat :=
  if scope.fileCursor = some file.id then scope.positionCursor.elim 0 (saturatingAdd · 1) else 0

/-- Whether the build has been through the file. -/
def done (scope : BackfillScope) (file : BackfillFile) : Bool :=
  scope.fileCursor.any (fun cursor => decide (file.id < cursor)) || decide (file.recordCount ≤ scope.first file)

end BackfillScope

section Derivation

variable {σ : Type} (catalog : BuildCatalog σ) (index : Nat)

open BuildStepBuffer Parquet

/-- The events of a batch of rows. -/
def BuildFileConsumer.events (consumer : BuildFileConsumer) (entries : List ScopedReadEntry) (firstOrdinal : Nat) :
    List BuildEvent :=
  entries.zipIdx.map fun (entry, offset) => consumer.event (saturatingAdd firstOrdinal offset) entry

def BuildFileConsumer.consume (consumer : BuildFileConsumer) (entries : List ScopedReadEntry) (firstOrdinal : Nat) :
    EStateM Error (BuildStepBuffer σ) Unit :=
  handleAll catalog index (consumer.events entries firstOrdinal)

variable {catalog index}

section Stream

variable (catalog index) (consumer : BuildFileConsumer) {file : Parquet.File} (reader : Reader file)
  (columns : List Nat)
  (source : RowIdSource) (fileSize : Option Nat) (start : Nat)

end Stream

end Derivation

/-! ## The weight of a step -/

/-- The saturating sum stands for the sum itself unless the byte bound is the largest one. -/
theorem BuildStep.sum_le_iff {bound : BuildStep} {n : Nat} (h : min n u64Max ≤ bound.bytes) :
    n ≤ bound.bytes ↔ bound.bytes < u64Max ∨ n ≤ u64Max := by
  have hfits := bound.fits
  omega

section Weight

open Transaction

/-- The columns of an entry's key in the orders of the definition. -/
def entryColumns (value : IndexValue) (entry : IndexEntry) : List OrderedColumn :=
  keyColumns entry.values ((columnOrders value).map ColumnOrder.direction) ((columnOrders value).map ColumnOrder.nulls)

variable {index : Nat} {value : IndexValue} {building : Bool}

theorem stagedBytes_of_encodedEntry {entry : IndexEntry} {e : StagedIndexEntry}
    (h : encodedEntry index { shapeOf value with building } false entry = some e) :
    entry.nominalBytes ≤ e.stagedBytes ∧
      (e.stagedBytes ≤ 2 * entry.nominalBytes ↔ EscapesFit (entryColumns value entry)) := by
  unfold encodedEntry at h
  split at h
  · split at h
    · cases h
    · next key hkey =>
      obtain rfl := Option.some.inj h
      exact stagedBytes_bounds hkey
  · cases h

/-- What the entries of a batch stage, against their nominal sizes. -/
theorem sum_stagedBytes {batch : List IndexEntry} {es : List StagedIndexEntry}
    (h : batch.mapM (encodedEntry index { shapeOf value with building } false) = some es) :
    nominalSum batch ≤ (es.map StagedIndexEntry.stagedBytes).sum ∧
      ((∀ entry ∈ batch, EscapesFit (entryColumns value entry)) →
        (es.map StagedIndexEntry.stagedBytes).sum ≤ 2 * nominalSum batch) := by
  induction batch generalizing es with
  | nil =>
    cases h
    exact ⟨Nat.le_refl _, fun _ => Nat.le_refl _⟩
  | cons entry batch ih =>
    simp only [List.mapM_cons, Option.bind_eq_bind, Option.bind_eq_some_iff, Option.pure_def, Option.some.injEq] at h
    obtain ⟨e, he, es', hes', rfl⟩ := h
    obtain ⟨hlow, hhigh⟩ := stagedBytes_of_encodedEntry he
    obtain ⟨hlow', hhigh'⟩ := ih hes'
    have hsum : nominalSum (entry :: batch) = entry.nominalBytes + nominalSum batch := rfl
    rw [hsum, List.map_cons, List.sum_cons]
    refine ⟨by omega, fun hfits => ?_⟩
    have hhere := hhigh.mpr (hfits entry List.mem_cons_self)
    have hrest := hhigh' fun entry' h' => hfits entry' (List.mem_cons_of_mem _ h')
    omega

/-- A build step stays within its promised size, as far as escaping lets it. Every pass cuts the entries that are pushed
    into steps, each of at most one entry or within the bound, and it commits with each step the last position it has
    been through. The bytes of an entry are at least its nominal size, and they are at most twice that size if and only
    if what escaping adds to the columns fits. A step of several entries for which it fits stages at most twice the
    byte bound. -/
theorem build_steps_bounded (bound : BuildStep) :
    (∀ (σ : Type) (catalog : BuildCatalog σ) (index : Nat) (start : Option (Nat × Nat)) (c : σ)
        (events : List BuildEvent) (b : BuildStepBuffer σ),
      (BuildStepBuffer.pass catalog index events (.start bound start c) = .ok () b →
        CutsInto bound start events b.committed ∧ b.committed.flatMap SourceStep.entries = pushedEntries events) ∧
      ∀ e, BuildStepBuffer.pass catalog index events (.start bound start c) = .error e b →
        CutsInto bound start events b.committed) ∧
    (∀ values directions nulls (e : StagedIndexEntry), encodeOrderedValues values directions nulls = .ok e.key →
      indexEntryBytes values ≤ e.stagedBytes ∧
        (e.stagedBytes ≤ 2 * indexEntryBytes values ↔ EscapesFit (keyColumns values directions nulls))) ∧
    ∀ step : SourceStep, bound.Admits step.entries → 1 < step.entries.length →
      step.entries.length ≤ bound.entries ∧
      (nominalSum step.entries ≤ bound.bytes ↔ bound.bytes < u64Max ∨ nominalSum step.entries ≤ u64Max) ∧
      ∀ (index : Nat) (tx tx' : Transaction),
        (Call.buildIndexSourceStep index step.entries step.isFinal step.source).run tx = .ok () tx' →
        ∃ t value es, findIndex tx.state index = some (t, value) ∧ tx'.indexEntries = tx.indexEntries ++ es ∧
          nominalSum step.entries ≤ (es.map StagedIndexEntry.stagedBytes).sum ∧
          (nominalSum step.entries ≤ bound.bytes → (∀ entry ∈ step.entries, EscapesFit (entryColumns value entry)) →
            (es.map StagedIndexEntry.stagedBytes).sum ≤ 2 * bound.bytes) := by
  refine ⟨fun σ catalog index start c events b => cuts_of_pass bound start c events,
    fun values directions nulls e h => stagedBytes_bounds h, fun step hadmits hmany => ?_⟩
  obtain hone | ⟨hcount, hsum⟩ := hadmits
  · omega
  refine ⟨hcount, BuildStep.sum_le_iff hsum, fun index tx tx' hrun => ?_⟩
  cases Call.effect_of_run _ hrun with
  | buildIndexSourceStep found building staged =>
    obtain ⟨hlow, hhigh⟩ := sum_stagedBytes staged
    refine ⟨_, _, _, found, rfl, hlow, fun hbytes hfits => ?_⟩
    have htwice := hhigh hfits
    omega

/-- A catalog that takes every step of a build of index 1. -/
def willingCatalog : BuildCatalog Unit where
  commit _ := pure ()
  indexesOf := pure
    [{ id := 1, tableId := 1, name := "i", columns := [1, 2], directions := [], nulls := [], unique := false
       maintenance := .synchronous, state := .building, buildCursor := none, buildFileCursor := none
       buildPositionCursor := none }]

/-- Seven of the eight bytes of a zero take four bytes each. Two entries of two zeros are one step within a bound of 76
    nominal bytes, and they stage 170. -/
theorem zero_values_exceed_twice :
    let values := [some (IndexKeyValue.int 0 .i64), some (.int 0 .i64)]
    let bound : BuildStep := ⟨2, 76, by decide⟩
    ∃ key b, encodeOrderedValues values [] [] = .ok key ∧
      BuildStepBuffer.pass willingCatalog 1 [.push ⟨0, values⟩ none, .push ⟨1, values⟩ none] (.start bound none ()) =
        .ok () b ∧
      b.committed = [⟨[⟨0, values⟩, ⟨1, values⟩], true, none⟩] ∧
      ∀ e : StagedIndexEntry, e.key = key → indexEntryBytes values = 38 ∧ e.stagedBytes = 85 := by
  intro values bound
  refine ⟨_, _, rfl, rfl, rfl, fun e he => ⟨rfl, ?_⟩⟩
  have hstaged : e.stagedBytes = 19 + ((keyColumns values [] []).map OrderedColumn.weight).sum := stagedBytes_eq he
  rw [hstaged]
  decide

end Weight

end Moraine
