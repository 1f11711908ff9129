-- SUMMARY: Inlined rows: chunks and tombstones, the table scan over them, and when it shows the right versions.
import Moraine.Base.OrdMap
import Moraine.Base.VersionLog

/-!
# Inlined rows

A table's inlined rows live in chunks, each a run of rows with dense ids, keyed by the schema version and
the snapshot that inserted them. A chunk is never rewritten. A deletion writes the row id's tombstone, one
record per row id, which the next deletion of the same row id overwrites. A scan materializes every row of
every chunk with the end its tombstone gives it and selects by snapshot.

`scanRecentRows_exact_iff` says for which histories of inserts, deletes and updates the scan shows, at every
snapshot, exactly the version of each row that was live then.
-/

namespace Moraine

open Std (ExtTreeMap TransOrd LawfulEqOrd)
open OrdMap

variable {Row : Type*}

/-- A stored chunk: a run of rows with dense ids. -/
structure InlineChunkValue (Row : Type*) where
  rowIdStart : Nat
  /-- The rows of the decoded body, in order. -/
  body : List Row
  deriving DecidableEq

/-- The rows of a chunk with their ids. -/
def InlineChunkValue.rows (chunk : InlineChunkValue Row) : List (Nat × Row) :=
  chunk.body.zipIdx.map fun (row, offset) => (chunk.rowIdStart + offset, row)

/-- The key of a chunk within its table: schema version, begin snapshot and sequence number. -/
abbrev InsertKey := Nat × Nat × Nat

def InsertKey.beginSnapshot (key : InsertKey) : Nat := key.2.1

/-- The stored inline records of one table. -/
structure InlineTable (Row : Type*) where
  chunks : ExtTreeMap InsertKey (InlineChunkValue Row) := ∅
  /-- The end snapshot recorded for a row id. -/
  tombstones : ExtTreeMap Nat Nat := ∅

/-! ## Scans -/

/-- One inlined row, located in its chunk. -/
structure InlineRow where
  rowId : Nat
  beginSnapshot : Nat
  endSnapshot : Option Nat
  chunk : Nat
  offsetInChunk : Nat

/-- The row at an offset of a chunk, with its end resolved from the tombstones. -/
def InlineRow.ofChunk (tombstones : ExtTreeMap Nat Nat) (key : InsertKey) (value : InlineChunkValue Row)
    (chunkIndex offset : Nat) : InlineRow :=
  let rowId := value.rowIdStart + offset
  { rowId := rowId
    beginSnapshot := key.beginSnapshot
    -- A tombstone ends only a version begun before it: an update re-inserts the row id it tombstones.
    endSnapshot := tombstones[rowId]?.filter fun e => key.beginSnapshot < e
    chunk := chunkIndex
    offsetInChunk := offset }

/-- Every row of every chunk. -/
def materializeInlineRows (chunks : List (InsertKey × InlineChunkValue Row))
    (inlineDeletes : List (Nat × Nat)) : List InlineRow :=
  let tombstones := ExtTreeMap.ofList inlineDeletes
  chunks.zipIdx.flatMap fun x =>
    (List.range x.1.2.body.length).map fun offset => .ofChunk tombstones x.1.1 x.1.2 x.2 offset

/-- The ways the inline reader queries a table. -/
inductive InlineScanKind where
  | table
  | insertions
  | deletions
  | forFlush

/-- The rows of one scan at `snapshot`, windowed from `start`. -/
def InlineScanKind.included (kind : InlineScanKind) (snapshot start : Nat) (row : InlineRow) : Bool :=
  match kind with
  | .table => row.beginSnapshot ≤ snapshot && row.endSnapshot.all fun e => snapshot < e
  | .insertions => start ≤ row.beginSnapshot && row.beginSnapshot ≤ snapshot
  | .deletions => row.endSnapshot.any fun e => start ≤ e && e ≤ snapshot
  | .forFlush => row.beginSnapshot ≤ snapshot

/-- Filters by the scan's predicate and orders by row id and begin snapshot. -/
def InlineScanKind.select (kind : InlineScanKind) (rows : List InlineRow) (snapshot start : Nat) :
    List InlineRow :=
  (rows.filter (kind.included snapshot start)).insertionSort fun a b =>
    a.rowId < b.rowId ∨ a.rowId = b.rowId ∧ a.beginSnapshot ≤ b.beginSnapshot

/-- One row a scan returns. -/
structure RecentRow (Row : Type*) where
  rowId : Nat
  beginSnapshot : Nat
  row : Row
  deriving DecidableEq

/-- The row a materialized row points at. -/
def InlineRow.resolve (chunks : List (InsertKey × InlineChunkValue Row)) (row : InlineRow) :
    Option (RecentRow Row) :=
  chunks[row.chunk]?.bind fun x =>
    x.2.body[row.offsetInChunk]?.map fun value => ⟨row.rowId, row.beginSnapshot, value⟩

/-- The inlined rows of the table live at `readAt`. -/
def InlineTable.scanRecentRows (t : InlineTable Row) (readAt : Nat) : List (RecentRow Row) :=
  let chunks := t.chunks.toList
  let live := InlineScanKind.table.select (materializeInlineRows chunks t.tombstones.toList) readAt 0
  live.filterMap fun row => row.resolve chunks

/-! ## Writes -/

/-- A staged inline operation on the table. -/
inductive InlineOperation (Row : Type*) where
  | insert (schemaVersion beginSnapshot rowIdStart : Nat) (body : List Row)
  | inlineDelete (rowId endSnapshot : Nat)

/-- A write of an inline record; `none` deletes it. -/
inductive InlineWrite (Row : Type*) where
  | chunk (key : InsertKey) (value : Option (InlineChunkValue Row))
  | tombstone (rowId : Nat) (endSnapshot : Option Nat)

/-- The next chunk sequence number of each schema version and snapshot within one commit. -/
abbrev ChunkSeqAllocator := ExtTreeMap (Nat × Nat) Nat

def ChunkSeqAllocator.next (seqs : ChunkSeqAllocator) (schemaVersion beginSnapshot : Nat) :
    Nat × ChunkSeqAllocator :=
  let allocated := seqs[(schemaVersion, beginSnapshot)]?.getD 0
  (allocated, seqs.insert (schemaVersion, beginSnapshot) (allocated + 1))

def translateInlineFrom (seqs : ChunkSeqAllocator) : List (InlineOperation Row) → List (InlineWrite Row)
  | [] => []
  | .insert schemaVersion beginSnapshot rowIdStart body :: ops =>
    let (chunkSeq, seqs) := seqs.next schemaVersion beginSnapshot
    .chunk (schemaVersion, beginSnapshot, chunkSeq) (some ⟨rowIdStart, body⟩) :: translateInlineFrom seqs ops
  | .inlineDelete rowId endSnapshot :: ops =>
    .tombstone rowId (some endSnapshot) :: translateInlineFrom seqs ops

/-- The writes of one commit's inline operations. -/
def translateInline (ops : List (InlineOperation Row)) : List (InlineWrite Row) := translateInlineFrom ∅ ops

def InlineTable.apply (t : InlineTable Row) : InlineWrite Row → InlineTable Row
  | .chunk key value => { t with chunks := setKey t.chunks key value }
  | .tombstone rowId endSnapshot => { t with tombstones := setKey t.tombstones rowId endSnapshot }

def InlineTable.applyAll (t : InlineTable Row) (writes : List (InlineWrite Row)) : InlineTable Row :=
  writes.foldl apply t

/-! ## What a scan shows of one row id -/

/-- The row a chunk holds under a row id. -/
def InlineChunkValue.rowAt (chunk : InlineChunkValue Row) (rowId : Nat) : Option Row :=
  if chunk.rowIdStart ≤ rowId then chunk.body[rowId - chunk.rowIdStart]? else none

/-- The stored versions of a row id, in chunk order. -/
def InlineTable.versions (t : InlineTable Row) (rowId : Nat) : List (Nat × Row) :=
  t.chunks.toList.filterMap fun x => (x.2.rowAt rowId).map (x.1.beginSnapshot, ·)

theorem InlineChunkValue.filter_rows (chunk : InlineChunkValue Row) (rowId : Nat) :
    chunk.rows.filter (·.1 = rowId) = ((chunk.rowAt rowId).map (rowId, ·)).toList := by
  obtain ⟨start, body⟩ := chunk
  induction body generalizing start with
  | nil => simp [rows, rowAt]
  | cons row body ih =>
    have hrows : rows ⟨start, row :: body⟩ = (start, row) :: rows ⟨start + 1, body⟩ := by
      simp only [rows, List.zipIdx_cons', List.map_cons, List.map_map, Nat.add_zero]
      congr 1
      refine List.map_congr_left fun x _ => ?_
      simp [Nat.add_assoc, Nat.add_comm 1]
    rw [hrows]
    by_cases hr : start = rowId
    · subst hr
      have hnone : (rows ⟨start + 1, body⟩).filter (·.1 = start) = [] := by
        rw [ih]
        simp [rowAt]
      simp [rowAt, hnone]
    · rw [List.filter_cons_of_neg (by simpa using hr), ih]
      by_cases hlt : start ≤ rowId
      · have hlt' : start + 1 ≤ rowId := by omega
        have hidx : rowId - start = (rowId - (start + 1)) + 1 := by omega
        simp [rowAt, hlt, hlt', hidx]
      · have hlt' : ¬ start + 1 ≤ rowId := by omega
        simp [rowAt, hlt, hlt']

/-- Reading a list by position is reading it with its positions. -/
private theorem filterMap_range' {α β : Type*} (l : List α) (k : Nat) (g : Nat → α → Option β) :
    (List.range' k l.length).filterMap (fun i => l[i - k]?.bind (g i)) =
      (l.zipIdx k).filterMap fun x => g x.2 x.1 := by
  induction l generalizing k with
  | nil => rfl
  | cons a l ih =>
    have htail : (List.range' (k + 1) l.length).filterMap (fun i => (a :: l)[i - k]?.bind (g i)) =
        (List.range' (k + 1) l.length).filterMap fun i => l[i - (k + 1)]?.bind (g i) := by
      refine List.filterMap_congr fun i hi => ?_
      rw [List.mem_range'_1] at hi
      have : i - k = (i - (k + 1)) + 1 := by omega
      rw [this, List.getElem?_cons_succ]
    simp [List.range'_succ, List.filterMap_cons, htail, ih]

section Scan

variable (t : InlineTable Row) (readAt : Nat)

/-- The rows of one chunk that read as live. -/
private def shownOf (key : InsertKey) (chunk : InlineChunkValue Row) : List (RecentRow Row) :=
  (chunk.rows.filter fun x => VersionLog.Shows t.tombstones[x.1]? readAt (key.beginSnapshot, x.2)).map
    fun x => ⟨x.1, key.beginSnapshot, x.2⟩

/-- A materialized row is in the table scan if its tombstone does not end it. -/
theorem included_ofChunk {V : Type*} (tombstones : ExtTreeMap Nat Nat) (key : InsertKey)
    (value : InlineChunkValue Row) (i offset : Nat) (row : V) :
    InlineScanKind.table.included readAt 0 (.ofChunk tombstones key value i offset) = true ↔
      VersionLog.Shows tombstones[value.rowIdStart + offset]? readAt (key.beginSnapshot, row) := by
  change (decide (key.beginSnapshot ≤ readAt) && Option.all (fun e => decide (readAt < e))
    (tombstones[value.rowIdStart + offset]?.filter fun e => key.beginSnapshot < e)) = true ↔ _
  unfold VersionLog.Shows
  generalize tombstones[value.rowIdStart + offset]? = tombstone
  cases tombstone with
  | none => simp
  | some e =>
    by_cases he : key.beginSnapshot < e
    · simp [he, he.not_ge]
    · simp [he, not_lt.mp he]

/-- The live rows of one chunk, resolved. -/
private theorem shownOf_eq {x : (InsertKey × InlineChunkValue Row) × Nat} (hx : x ∈ t.chunks.toList.zipIdx) :
    ((((List.range x.1.2.body.length).map
        fun offset => .ofChunk (ExtTreeMap.ofList t.tombstones.toList) x.1.1 x.1.2 x.2 offset).filter
      (InlineScanKind.table.included readAt 0)).filterMap fun row => row.resolve t.chunks.toList) =
      shownOf t readAt x.1.1 x.1.2 := by
  obtain ⟨⟨key, chunk⟩, i⟩ := x
  have hget : t.chunks.toList[i]? = some (key, chunk) := List.mem_zipIdx_iff_getElem?.mp hx
  have hzip := filterMap_range' chunk.body 0 fun offset row =>
    if VersionLog.Shows t.tombstones[chunk.rowIdStart + offset]? readAt (key.beginSnapshot, row) then
      some (⟨chunk.rowIdStart + offset, key.beginSnapshot, row⟩ : RecentRow Row)
    else none
  rw [← List.range_eq_range'] at hzip
  rw [List.filterMap_filter, List.filterMap_map, shownOf, InlineChunkValue.rows, ← List.filterMap_eq_filter,
    List.map_filterMap, List.filterMap_map]
  refine Eq.trans (List.filterMap_congr fun offset _ => ?_) (hzip.trans (List.filterMap_congr fun x _ => ?_))
  · have hresolve : (InlineRow.ofChunk (ExtTreeMap.ofList t.tombstones.toList) key chunk i offset).resolve
        t.chunks.toList = chunk.body[offset]?.map (⟨chunk.rowIdStart + offset, key.beginSnapshot, ·⟩) := by
      unfold InlineRow.resolve
      rw [show (InlineRow.ofChunk _ key chunk i offset).chunk = i from rfl, hget]
      rfl
    simp only [Function.comp, hresolve, Nat.sub_zero]
    cases chunk.body[offset]? with
    | none => simp
    | some row =>
      have hincluded := included_ofChunk readAt (ExtTreeMap.ofList t.tombstones.toList) key chunk i offset row
      rw [getElem?_ofList_toList] at hincluded
      exact if_congr hincluded rfl rfl
  · by_cases hshows : VersionLog.Shows t.tombstones[chunk.rowIdStart + x.2]? readAt (key.beginSnapshot, x.1) <;>
      simp [hshows]

/-- A scan returns, in another order, the rows of each chunk that read as live. -/
theorem InlineTable.scanRecentRows_perm :
    (t.scanRecentRows readAt).Perm (t.chunks.toList.flatMap fun x => shownOf t readAt x.1 x.2) := by
  unfold scanRecentRows InlineScanKind.select
  refine ((List.perm_insertionSort _ _).filterMap _).trans (.of_eq ?_)
  rw [materializeInlineRows, List.filter_flatMap, List.filterMap_flatMap,
    List.flatMap_congr fun x hx => shownOf_eq t readAt hx]
  have hfst : t.chunks.toList = t.chunks.toList.zipIdx.map Prod.fst := by simp
  conv_rhs => rw [hfst, List.flatMap_map]

private theorem filter_shownOf (key : InsertKey) (chunk : InlineChunkValue Row) (rowId : Nat) :
    (shownOf t readAt key chunk).filter (·.rowId = rowId) =
      (((chunk.rowAt rowId).map (key.beginSnapshot, ·)).toList.filter
        (VersionLog.Shows t.tombstones[rowId]? readAt ·)).map fun y => ⟨rowId, y.1, y.2⟩ := by
  have hswap : (shownOf t readAt key chunk).filter (·.rowId = rowId) =
      ((chunk.rows.filter (·.1 = rowId)).filter
        fun x => VersionLog.Shows t.tombstones[x.1]? readAt (key.beginSnapshot, x.2)).map
        fun x => ⟨x.1, key.beginSnapshot, x.2⟩ := by
    rw [shownOf, List.filter_map, List.filter_comm]
    rfl
  rw [hswap, chunk.filter_rows]
  cases chunk.rowAt rowId with
  | none => rfl
  | some row =>
    by_cases hshows : VersionLog.Shows t.tombstones[rowId]? readAt (key.beginSnapshot, row) <;>
      simp [hshows]

/-- Of one row id, a scan shows the stored versions its tombstone does not end. -/
theorem InlineTable.filter_scanRecentRows (rowId : Nat) :
    ((t.scanRecentRows readAt).filter (·.rowId = rowId)).Perm
      (((t.versions rowId).filter (VersionLog.Shows t.tombstones[rowId]? readAt ·)).map
        fun x => ⟨rowId, x.1, x.2⟩) := by
  refine ((t.scanRecentRows_perm readAt).filter _).trans (.of_eq ?_)
  unfold versions
  induction t.chunks.toList with
  | nil => rfl
  | cons x chunks ih =>
    rw [List.flatMap_cons, List.filter_append, ih, filter_shownOf]
    cases hrow : x.2.rowAt rowId with
    | none => simp [hrow]
    | some row =>
      by_cases hshows : VersionLog.Shows t.tombstones[rowId]? readAt (x.1.beginSnapshot, row) <;>
        simp [hrow, hshows]

end Scan

/-! ## Histories -/

/-- What a commit does to the table's inlined rows, in order. An update is a delete and an insert of the
    same row id. -/
inductive InlineEdit (Row : Type*) where
  | insert (schemaVersion rowIdStart : Nat) (body : List Row)
  | delete (rowId : Nat)

/-- The operation a commit stages for an edit. -/
def InlineEdit.stage (snapshot : Nat) : InlineEdit Row → InlineOperation Row
  | .insert schemaVersion rowIdStart body => .insert schemaVersion snapshot rowIdStart body
  | .delete rowId => .inlineDelete rowId snapshot

structure InlineCommit (Row : Type*) where
  snapshot : Nat
  edits : List (InlineEdit Row)

def InlineCommit.ops (c : InlineCommit Row) : List (InlineOperation Row) := c.edits.map (·.stage c.snapshot)

def InlineTable.commit (t : InlineTable Row) (c : InlineCommit Row) : InlineTable Row :=
  t.applyAll (translateInline c.ops)

/-- The table a history of commits leaves. -/
def InlineTable.ofHistory (history : List (InlineCommit Row)) : InlineTable Row := history.foldl commit {}

/-- The head snapshot after a history. -/
def headSnapshot (history : List (InlineCommit Row)) : Nat := (history.getLast?.map (·.snapshot)).getD 0

/-- When an operation begins or ends a version of the row id. -/
def InlineOperation.event (rowId : Nat) : InlineOperation Row → VersionLog.Log Row
  | .insert _ beginSnapshot rowIdStart body =>
    (((⟨rowIdStart, body⟩ : InlineChunkValue Row).rowAt rowId).map (beginSnapshot, some ·)).toList
  | .inlineDelete id endSnapshot => if id = rowId then [(endSnapshot, none)] else []

/-- The begins and ends of a row id over a history. -/
def rowLog (history : List (InlineCommit Row)) (rowId : Nat) : VersionLog.Log Row :=
  (history.flatMap (·.ops)).flatMap (·.event rowId)

section History

/-- From `t` to `t'` the row id gained the versions and the ends of `log`. -/
private structure Extends (t t' : InlineTable Row) (rowId : Nat) (log : VersionLog.Log Row) : Prop where
  versions : (t'.versions rowId).Perm (t.versions rowId ++ VersionLog.begun log)
  tombstone : t'.tombstones[rowId]? = (VersionLog.ends log).getLast?.or t.tombstones[rowId]?

/-- The chunk keys of the commit that mints `n` are yet to be allocated. -/
private def SeqsFresh (t : InlineTable Row) (seqs : ChunkSeqAllocator) (n : Nat) : Prop :=
  ∀ key : InsertKey, t.chunks[key]? ≠ none →
    key.beginSnapshot < n ∨ key.beginSnapshot = n ∧ key.2.2 < seqs[(key.1, n)]?.getD 0

variable {t t' t'' : InlineTable Row} {seqs : ChunkSeqAllocator} {n rowId : Nat} {log log' : VersionLog.Log Row}

private theorem Extends.refl (t : InlineTable Row) (rowId : Nat) : Extends t t rowId [] :=
  ⟨.of_eq (by simp [VersionLog.begun]), rfl⟩

private theorem Extends.trans (h : Extends t t' rowId log) (h' : Extends t' t'' rowId log') :
    Extends t t'' rowId (log ++ log') where
  versions := by
    refine h'.versions.trans ((h.versions.append_right _).trans (.of_eq ?_))
    rw [List.append_assoc, VersionLog.begun, VersionLog.begun, VersionLog.begun, List.filterMap_append]
  tombstone := by
    rw [h'.tombstone, h.tombstone, ← Option.or_assoc, ← List.getLast?_append, VersionLog.ends, VersionLog.ends,
      VersionLog.ends, List.filterMap_append]

private theorem extends_chunk {key : InsertKey} (hkey : t.chunks[key]? = none) (chunk : InlineChunkValue Row)
    (rowId : Nat) :
    Extends t (t.apply (.chunk key (some chunk))) rowId
      ((chunk.rowAt rowId).map (key.beginSnapshot, some ·)).toList where
  versions := by
    unfold InlineTable.versions InlineTable.apply setKey
    refine ((toList_insert_perm hkey chunk).filterMap _).trans (.of_eq ?_)
    rw [List.filterMap_append]
    cases hrow : chunk.rowAt rowId <;> simp [hrow, VersionLog.begun]
  tombstone := by cases chunk.rowAt rowId <;> rfl

private theorem extends_tombstone (t : InlineTable Row) (id endSnapshot rowId : Nat) :
    Extends t (t.apply (.tombstone id (some endSnapshot))) rowId
      (if id = rowId then [(endSnapshot, none)] else []) where
  versions := by
    refine .of_eq ?_
    split <;> simp [InlineTable.apply, InlineTable.versions, VersionLog.begun]
  tombstone := by
    by_cases hid : id = rowId
    · simp [InlineTable.apply, hid, VersionLog.ends]
    · simp [InlineTable.apply, hid, Ne.symm hid, VersionLog.ends]

private theorem SeqsFresh.next (h : SeqsFresh t seqs n) (schemaVersion : Nat) (chunk : InlineChunkValue Row) :
    SeqsFresh (t.apply (.chunk (schemaVersion, n, (seqs.next schemaVersion n).1) (some chunk)))
      (seqs.next schemaVersion n).2 n := by
  rintro ⟨version, begun, seq⟩ hmem
  simp only [InlineTable.apply, getElem?_setKey] at hmem
  simp only [ChunkSeqAllocator.next, getElem?_insert_ite, InsertKey.beginSnapshot]
  by_cases hkey : (version, begun, seq) = (schemaVersion, n, (seqs.next schemaVersion n).1)
  · cases hkey
    simp [ChunkSeqAllocator.next]
  · rw [if_neg hkey] at hmem
    rcases h _ hmem with hlt | ⟨rfl, hseq⟩
    · exact .inl hlt
    · refine .inr ⟨rfl, ?_⟩
      simp only [InsertKey.beginSnapshot] at hseq ⊢
      by_cases hversion : version = schemaVersion
      · subst hversion
        simpa using hseq.trans (Nat.lt_succ_self _)
      · simpa [hversion] using hseq

private theorem SeqsFresh.chunk_eq_none (h : SeqsFresh t seqs n) (schemaVersion : Nat) :
    t.chunks[(schemaVersion, n, (seqs.next schemaVersion n).1)]? = none := by
  by_contra hne
  rcases h _ hne with hlt | ⟨-, hlt⟩
  · exact lt_irrefl _ hlt
  · exact lt_irrefl _ hlt

/-- What one commit's operations do to a row id, and to the chunk keys. -/
private theorem SeqsFresh.applyAll (h : SeqsFresh t seqs n) (edits : List (InlineEdit Row)) (rowId : Nat) :
    Extends t (t.applyAll (translateInlineFrom seqs (edits.map (·.stage n)))) rowId
        ((edits.map (·.stage n)).flatMap (·.event rowId)) ∧
      ∃ seqs', SeqsFresh (t.applyAll (translateInlineFrom seqs (edits.map (·.stage n)))) seqs' n := by
  induction edits generalizing t seqs with
  | nil => exact ⟨.refl t rowId, seqs, h⟩
  | cons edit edits ih =>
    cases edit with
    | insert schemaVersion rowIdStart body =>
      obtain ⟨hext, hseqs⟩ := ih (h.next schemaVersion ⟨rowIdStart, body⟩)
      exact ⟨(extends_chunk (h.chunk_eq_none schemaVersion) ⟨rowIdStart, body⟩ rowId).trans hext, hseqs⟩
    | delete id =>
      have hid : SeqsFresh (t.apply (.tombstone id (some n))) seqs n := h
      obtain ⟨hext, hseqs⟩ := ih hid
      exact ⟨(extends_tombstone t id n rowId).trans hext, hseqs⟩

/-- The versions and the tombstone of a row id after a commit whose snapshot no stored chunk has reached. -/
theorem InlineTable.commit_spec {c : InlineCommit Row}
    (hbelow : ∀ key, t.chunks[key]? ≠ none → InsertKey.beginSnapshot key < c.snapshot) (rowId : Nat) :
    ((t.commit c).versions rowId).Perm
        (t.versions rowId ++ VersionLog.begun (c.ops.flatMap (·.event rowId))) ∧
      (t.commit c).tombstones[rowId]? =
        (VersionLog.ends (c.ops.flatMap (·.event rowId))).getLast?.or t.tombstones[rowId]? ∧
      ∀ key, (t.commit c).chunks[key]? ≠ none → InsertKey.beginSnapshot key ≤ c.snapshot := by
  have hfresh : SeqsFresh t ∅ c.snapshot := fun key hkey => .inl (hbelow key hkey)
  obtain ⟨hext, seqs', hseqs'⟩ := hfresh.applyAll c.edits rowId
  refine ⟨hext.versions, hext.tombstone, fun key hkey => ?_⟩
  rcases hseqs' key hkey with h | h
  · exact h.le
  · exact h.1.le

/-- What a history does to a row id. -/
private theorem extends_foldl_commit {history : List (InlineCommit Row)}
    (hascend : history.Pairwise (·.snapshot < ·.snapshot))
    (hbelow : ∀ c ∈ history, ∀ key, t.chunks[key]? ≠ none → InsertKey.beginSnapshot key < c.snapshot)
    (rowId : Nat) :
    Extends t (history.foldl InlineTable.commit t) rowId (rowLog history rowId) := by
  induction history generalizing t with
  | nil => exact .refl t rowId
  | cons c history ih =>
    rw [List.pairwise_cons] at hascend
    obtain ⟨hversions, htombstone, hchunks⟩ := t.commit_spec (hbelow c List.mem_cons_self) rowId
    have hrest := ih hascend.2 (t := t.commit c) fun c' hc' key hkey =>
      (hchunks key hkey).trans_lt (hascend.1 c' hc')
    rw [rowLog, List.flatMap_cons, List.flatMap_append]
    exact Extends.trans ⟨hversions, htombstone⟩ hrest

theorem ofHistory_versions {history : List (InlineCommit Row)}
    (hascend : history.Pairwise (·.snapshot < ·.snapshot)) (rowId : Nat) :
    ((InlineTable.ofHistory history).versions rowId).Perm (VersionLog.begun (rowLog history rowId)) ∧
      (InlineTable.ofHistory history).tombstones[rowId]? = (VersionLog.ends (rowLog history rowId)).getLast? := by
  have hext := extends_foldl_commit (t := {}) hascend (fun c _ key hkey => absurd (by simp) hkey) rowId
  refine ⟨hext.versions.trans (.of_eq ?_), hext.tombstone.trans ?_⟩
  · have hempty : (({} : InlineTable Row).versions rowId) = [] := by simp [InlineTable.versions]
    rw [hempty, List.nil_append]
  · simp

private theorem event_time {n rowId : Nat} {edit : InlineEdit Row} {e : Nat × Option Row}
    (he : e ∈ (edit.stage n).event rowId) : e.1 = n := by
  cases edit with
  | insert schemaVersion rowIdStart body =>
    rw [InlineEdit.stage, InlineOperation.event, Option.mem_toList, Option.map_eq_some_iff] at he
    obtain ⟨row, -, rfl⟩ := he
    rfl
  | delete id =>
    rw [InlineEdit.stage, InlineOperation.event] at he
    split at he
    · rw [List.mem_singleton.mp he]
    · cases he

private theorem rowLog_eq (history : List (InlineCommit Row)) (rowId : Nat) :
    rowLog history rowId =
      history.flatMap fun c => c.edits.flatMap fun edit => (edit.stage c.snapshot).event rowId := by
  simp only [rowLog, InlineCommit.ops, List.flatMap_assoc, List.flatMap_map]

/-- The events of a history are in snapshot order and reach up to its head. -/
theorem rowLog_ordered {history : List (InlineCommit Row)} (hascend : history.Pairwise (·.snapshot < ·.snapshot))
    (rowId : Nat) :
    (rowLog history rowId).Pairwise (fun d e => d.1 ≤ e.1) ∧
      ∀ e ∈ rowLog history rowId, e.1 ≤ headSnapshot history := by
  rw [rowLog_eq]
  refine ⟨List.pairwise_flatMap.mpr ⟨fun c _ => ?_, hascend.imp fun hlt d hd e he => ?_⟩, fun e he => ?_⟩
  · refine List.pairwise_of_forall_mem_list fun d hd e he => ?_
    obtain ⟨edit, -, hd⟩ := List.mem_flatMap.mp hd
    obtain ⟨edit', -, he⟩ := List.mem_flatMap.mp he
    rw [event_time hd, event_time he]
  · obtain ⟨edit, -, hd⟩ := List.mem_flatMap.mp hd
    obtain ⟨edit', -, he⟩ := List.mem_flatMap.mp he
    rw [event_time hd, event_time he]
    exact hlt.le
  · obtain ⟨c, hc, he⟩ := List.mem_flatMap.mp he
    obtain ⟨edit, -, he⟩ := List.mem_flatMap.mp he
    rw [event_time he]
    cases history using List.reverseRecOn with
    | nil => cases hc
    | append_singleton init last =>
      simp only [headSnapshot, List.getLast?_append, List.getLast?_singleton, Option.some_or, Option.map_some,
        Option.getD_some]
      rcases List.mem_append.mp hc with hc | hc
      · exact ((List.pairwise_append.mp hascend).2.2 c hc last (by simp)).le
      · rw [List.mem_singleton.mp hc]

/-- Of one row id the scan returns what is live exactly if the log's begins and last end show it. -/
private theorem filter_scanRecentRows_perm_iff {history : List (InlineCommit Row)}
    (hascend : history.Pairwise (·.snapshot < ·.snapshot)) (readAt rowId : Nat) (live : List (Nat × Row)) :
    (((InlineTable.ofHistory history).scanRecentRows readAt).filter (·.rowId = rowId)).Perm
        (live.map fun x => ⟨rowId, x.1, x.2⟩) ↔
      (VersionLog.shown (rowLog history rowId) readAt).Perm live := by
  have hinj : Function.Injective fun x : Nat × Row => (⟨rowId, x.1, x.2⟩ : RecentRow Row) := by
    rintro ⟨b, row⟩ ⟨b', row'⟩ h
    cases h
    rfl
  obtain ⟨hversions, htombstone⟩ := ofHistory_versions hascend rowId
  have hscan := (InlineTable.ofHistory history).filter_scanRecentRows readAt rowId
  rw [htombstone] at hscan
  have hshown := hscan.trans ((hversions.filter _).map _)
  exact ⟨fun h => (List.map_perm_map_iff hinj).mp (hshown.symm.trans h), fun h => hshown.trans (h.map _)⟩

end History

/-! ## What one commit leaves live -/

namespace InlineTable

/-- A stored version of the row id is shown at `snapshot`. -/
def Live (t : InlineTable Row) (snapshot rowId : Nat) (row : Row) : Prop :=
  ∃ b, (b, row) ∈ t.versions rowId ∧ VersionLog.Shows t.tombstones[rowId]? snapshot (b, row)

/-- Nothing is stored that begins or ends after `n`. -/
structure Bounded (t : InlineTable Row) (n : Nat) : Prop where
  begins : ∀ key, t.chunks[key]? ≠ none → InsertKey.beginSnapshot key ≤ n
  ends : ∀ rowId e : Nat, t.tombstones[rowId]? = some e → e ≤ n

theorem mem_versions_iff (t : InlineTable Row) (rowId : Nat) (x : Nat × Row) :
    x ∈ t.versions rowId ↔ ∃ key chunk, t.chunks[key]? = some chunk ∧ InsertKey.beginSnapshot key = x.1 ∧
      chunk.rowAt rowId = some x.2 := by
  unfold versions
  rw [List.mem_filterMap]
  constructor
  · rintro ⟨⟨key, chunk⟩, hmem, hx⟩
    obtain ⟨row, hrow, rfl⟩ := Option.map_eq_some_iff.mp hx
    exact ⟨key, chunk, ExtTreeMap.mem_toList_iff_getElem?_eq_some.mp hmem, rfl, hrow⟩
  · rintro ⟨key, chunk, hchunk, hb, hrow⟩
    refine ⟨(key, chunk), ExtTreeMap.mem_toList_iff_getElem?_eq_some.mpr hchunk, ?_⟩
    rw [hrow, Option.map_some, hb]

end InlineTable

namespace InlineCommit

variable (c : InlineCommit Row) (rowId : Nat)

/-- A chunk of the commit holds the row id with this row. -/
def Inserts (row : Row) : Prop :=
  ∃ schemaVersion rowIdStart body, .insert schemaVersion rowIdStart body ∈ c.edits ∧
    (⟨rowIdStart, body⟩ : InlineChunkValue Row).rowAt rowId = some row

private theorem mem_begun_event (n : Nat) (edit : InlineEdit Row) (x : Nat × Row) :
    x ∈ VersionLog.begun ((edit.stage n).event rowId) ↔ x.1 = n ∧ Inserts ⟨n, [edit]⟩ rowId x.2 := by
  obtain ⟨b, row⟩ := x
  unfold Inserts
  cases edit with
  | insert schemaVersion rowIdStart body =>
    cases hrow : (⟨rowIdStart, body⟩ : InlineChunkValue Row).rowAt rowId <;>
      simp [InlineEdit.stage, InlineOperation.event, hrow, VersionLog.begun, eq_comm]
  | delete id =>
    by_cases hid : id = rowId <;>
      simp [InlineEdit.stage, InlineOperation.event, hid, VersionLog.begun]

theorem mem_begun_iff (x : Nat × Row) :
    x ∈ VersionLog.begun (c.ops.flatMap (·.event rowId)) ↔ x.1 = c.snapshot ∧ c.Inserts rowId x.2 := by
  obtain ⟨n, edits⟩ := c
  induction edits with
  | nil => simp [ops, VersionLog.begun, Inserts]
  | cons edit edits ih =>
    have hsplit : VersionLog.begun ((ops ⟨n, edit :: edits⟩).flatMap (·.event rowId)) =
        VersionLog.begun ((edit.stage n).event rowId) ++
          VersionLog.begun ((ops ⟨n, edits⟩).flatMap (·.event rowId)) := by
      simp [ops, VersionLog.begun]
    rw [hsplit, List.mem_append, ih, mem_begun_event, ← and_or_left]
    simp only [Inserts, List.mem_cons, List.not_mem_nil, or_false, or_and_right, exists_or]

theorem mem_ends_iff (e : Nat) :
    e ∈ VersionLog.ends (c.ops.flatMap (·.event rowId)) ↔ e = c.snapshot ∧ .delete rowId ∈ c.edits := by
  obtain ⟨n, edits⟩ := c
  induction edits with
  | nil => simp [ops, VersionLog.ends]
  | cons edit edits ih =>
    have hsplit : VersionLog.ends ((ops ⟨n, edit :: edits⟩).flatMap (·.event rowId)) =
        VersionLog.ends ((edit.stage n).event rowId) ++
          VersionLog.ends ((ops ⟨n, edits⟩).flatMap (·.event rowId)) := by
      simp [ops, VersionLog.ends]
    rw [hsplit, List.mem_append, ih]
    cases edit with
    | insert schemaVersion rowIdStart body =>
      cases hrow : (⟨rowIdStart, body⟩ : InlineChunkValue Row).rowAt rowId <;>
        simp [InlineEdit.stage, InlineOperation.event, hrow, VersionLog.ends]
    | delete id =>
      by_cases hid : id = rowId
      · simp [InlineEdit.stage, InlineOperation.event, hid, VersionLog.ends]
        tauto
      · simp [InlineEdit.stage, InlineOperation.event, hid, Ne.symm hid, VersionLog.ends]

end InlineCommit

namespace InlineTable

variable {t : InlineTable Row} {n : Nat} {c : InlineCommit Row}

theorem Bounded.begins_lt (h : t.Bounded n) (hn : n < c.snapshot) :
    ∀ key, t.chunks[key]? ≠ none → InsertKey.beginSnapshot key < c.snapshot :=
  fun key hkey => (h.begins key hkey).trans_lt hn

theorem Bounded.mem_commit_versions (h : t.Bounded n) (hn : n < c.snapshot) (rowId : Nat) (x : Nat × Row) :
    x ∈ (t.commit c).versions rowId ↔
      x ∈ t.versions rowId ∨ x.1 = c.snapshot ∧ c.Inserts rowId x.2 := by
  rw [(commit_spec (h.begins_lt hn) rowId).1.mem_iff, List.mem_append, c.mem_begun_iff]

theorem Bounded.commit_tombstone (h : t.Bounded n) (hn : n < c.snapshot) (rowId : Nat) :
    .delete rowId ∈ c.edits ∧ (t.commit c).tombstones[rowId]? = some c.snapshot ∨
      .delete rowId ∉ c.edits ∧ (t.commit c).tombstones[rowId]? = t.tombstones[rowId]? := by
  have htomb := (commit_spec (h.begins_lt hn) rowId).2.1
  cases hlast : (VersionLog.ends (c.ops.flatMap (·.event rowId))).getLast? with
  | none =>
    refine .inr ⟨fun hdel => ?_, by rw [htomb, hlast, Option.none_or]⟩
    have hmem := (c.mem_ends_iff rowId c.snapshot).mpr ⟨rfl, hdel⟩
    rw [List.getLast?_eq_none_iff.mp hlast] at hmem
    cases hmem
  | some e =>
    obtain ⟨rfl, hdel⟩ := (c.mem_ends_iff rowId e).mp (List.mem_of_getLast? hlast)
    exact .inl ⟨hdel, by rw [htomb, hlast, Option.some_or]⟩

/-- After a commit the rows live before and not deleted are live, and the rows it inserted. A row it inserts
    and deletes is among them. -/
theorem Bounded.live_commit_iff (h : t.Bounded n) (hn : n < c.snapshot) (rowId : Nat) (row : Row) :
    (t.commit c).Live c.snapshot rowId row ↔
      t.Live n rowId row ∧ .delete rowId ∉ c.edits ∨ c.Inserts rowId row := by
  have hold : ∀ b, (b, row) ∈ t.versions rowId → b ≤ n := by
    intro b hb
    obtain ⟨key, chunk, hchunk, rfl, -⟩ := (t.mem_versions_iff rowId _).mp hb
    exact h.begins key (by rw [hchunk]; simp)
  constructor
  · rintro ⟨b, hb, hshows⟩
    rcases (h.mem_commit_versions hn rowId _).mp hb with hb | ⟨-, hins⟩
    · have hbn := hold b hb
      rcases h.commit_tombstone hn rowId with ⟨-, htomb⟩ | ⟨hdel, htomb⟩
      · -- The tombstone ends every version begun before the commit.
        rcases hshows.2 c.snapshot htomb with hle | hlt
        · exact absurd hle (by simp only; omega)
        · exact absurd hlt (lt_irrefl _)
      · rw [htomb] at hshows
        exact .inl ⟨⟨b, hb, hbn, fun e he => (hshows.2 e he).imp_right hn.trans⟩, hdel⟩
    · exact .inr hins
  · rintro (⟨⟨b, hb, hshows⟩, hdel⟩ | hins)
    · rcases h.commit_tombstone hn rowId with ⟨hdel', -⟩ | ⟨-, htomb⟩
      · exact absurd hdel' hdel
      · refine ⟨b, (h.mem_commit_versions hn rowId _).mpr (.inl hb), hshows.1.trans hn.le, fun e he => ?_⟩
        rw [htomb] at he
        -- A stored end is not later than the head before the commit.
        rcases hshows.2 e he with hle | hlt
        · exact .inl hle
        · exact absurd (h.ends rowId e he) hlt.not_ge
    · refine ⟨c.snapshot, (h.mem_commit_versions hn rowId _).mpr (.inr ⟨rfl, hins⟩), le_rfl, fun e he => .inl ?_⟩
      rcases h.commit_tombstone hn rowId with ⟨-, htomb⟩ | ⟨-, htomb⟩
      · rw [htomb] at he
        cases he
        exact le_rfl
      · rw [htomb] at he
        exact (h.ends rowId e he).trans hn.le

theorem Bounded.commit (h : t.Bounded n) (hn : n < c.snapshot) : (t.commit c).Bounded c.snapshot where
  begins := fun key hkey => (commit_spec (h.begins_lt hn) 0).2.2 key hkey
  ends := by
    intro rowId e he
    rcases h.commit_tombstone hn rowId with ⟨-, htomb⟩ | ⟨-, htomb⟩
    · rw [htomb] at he
      cases he
      exact le_rfl
    · rw [htomb] at he
      exact (h.ends rowId e he).trans hn.le

end InlineTable

/-- Over a history of inserts and deletes in any order, where a version is live from its commit until the
    first delete of its row id after it, the table scan returns at every snapshot up to the head exactly the
    live versions of each row, if and only if the first delete after each version falls in the commit of the
    row id's last delete, later than the version's own commit. Where row ids are inserted only when they are
    not live, at most one version of a row is live. -/
theorem scanRecentRows_exact_iff {history : List (InlineCommit Row)}
    (hascend : history.Pairwise (·.snapshot < ·.snapshot)) :
    ((∀ readAt ≤ headSnapshot history, ∀ rowId,
        (((InlineTable.ofHistory history).scanRecentRows readAt).filter (·.rowId = rowId)).Perm
          ((VersionLog.liveAt (rowLog history rowId) readAt).map fun x => ⟨rowId, x.1, x.2⟩)) ↔
      ∀ rowId, VersionLog.EndsLast (rowLog history rowId)) ∧
    ∀ rowId, VersionLog.Single (rowLog history rowId) →
      ∀ readAt, (VersionLog.liveAt (rowLog history rowId) readAt).length ≤ 1 := by
  refine ⟨?_, fun rowId hsingle readAt => hsingle.length_liveAt_le (rowLog_ordered hascend rowId).1 readAt⟩
  simp only [filter_scanRecentRows_perm_iff hascend]
  constructor
  · intro h rowId
    obtain ⟨hordered, hhead⟩ := rowLog_ordered hascend rowId
    refine (VersionLog.shown_eq_iff hordered hhead).mp fun s hs => ?_
    -- What is live is shown, so as many shown versions are the same ones.
    exact ((VersionLog.liveAt_sublist_shown hordered s).eq_of_length (h s hs rowId).length_eq.symm).symm
  · intro h s hs rowId
    obtain ⟨hordered, hhead⟩ := rowLog_ordered hascend rowId
    exact .of_eq ((VersionLog.shown_eq_iff hordered hhead).mpr (h rowId) s hs)

/-! ## Rows updated or deleted twice, and a row deleted by the commit that inserts it -/

namespace Updates

/-- Row 0 is inserted at snapshot 1 and updated at snapshot 3. -/
def once : List (InlineCommit String) :=
  [⟨1, [.insert 0 0 ["a"]]⟩, ⟨3, [.delete 0, .insert 0 0 ["b"]]⟩]

/-- Row 0 is updated once more at snapshot 5. -/
def twice : List (InlineCommit String) := once ++ [⟨5, [.delete 0, .insert 0 0 ["c"]]⟩]

/-- Row 0 is inserted and deleted at snapshot 1. -/
def fleeting : List (InlineCommit String) := [⟨1, [.insert 0 0 ["a"], .delete 0]⟩]

/-- Row 0 is deleted, and deleted again in a later commit. -/
def repeated : List (InlineCommit String) := [⟨1, [.insert 0 0 ["a"]]⟩, ⟨2, [.delete 0]⟩, ⟨3, [.delete 0]⟩]

/-- `scanRecentRows_exact_iff` at a row updated once, where both sides hold. -/
theorem scanRecentRows_exact_iff_once :
    (∀ rowId, VersionLog.EndsLast (rowLog once rowId)) ∧
      ∀ readAt ≤ headSnapshot once, ∀ rowId,
        (((InlineTable.ofHistory once).scanRecentRows readAt).filter (·.rowId = rowId)).Perm
          ((VersionLog.liveAt (rowLog once rowId) readAt).map fun x => ⟨rowId, x.1, x.2⟩) := by
  have hends : ∀ rowId, VersionLog.EndsLast (rowLog once rowId) := by
    intro rowId
    cases rowId with
    | zero =>
      change VersionLog.EndsLast [(1, some "a"), (3, none), (3, some "b")]
      simp [VersionLog.EndsLast, VersionLog.EndsAt, VersionLog.ends]
    | succ rowId => trivial
  exact ⟨hends, (scanRecentRows_exact_iff (by decide)).1.mpr hends⟩

/-- After two updates the first version ends only with the second tombstone, so snapshot 3 shows both `a`
    and `b`; a row deleted by the commit that inserted it stays visible; and a row deleted at 2 and again at 3
    is still shown at 2. -/
theorem scan_shows_ended_versions :
    (twice.Pairwise (·.snapshot < ·.snapshot) ∧
      VersionLog.liveAt (rowLog twice 0) 3 = [(3, "b")] ∧
      (InlineTable.ofHistory twice).scanRecentRows 3 = [⟨0, 1, "a"⟩, ⟨0, 3, "b"⟩]) ∧
    (VersionLog.liveAt (rowLog fleeting 0) 1 = [] ∧
      (InlineTable.ofHistory fleeting).scanRecentRows 1 = [⟨0, 1, "a"⟩]) ∧
    VersionLog.liveAt (rowLog repeated 0) 2 = [] ∧
      (InlineTable.ofHistory repeated).scanRecentRows 2 = [⟨0, 1, "a"⟩] := by
  decide +kernel

end Updates

end Moraine
