-- SUMMARY: When a staged-row commit keeps the values of a unique index distinct.
import Moraine.Transaction.IndexUpkeep

/-!
# Uniqueness on the staged-row path

A commit probes the values it puts under a unique index against the stored entries, except those one of its
own removals names. A removal is derived from every version of a tombstoned row, the one being inserted
included, and from every position a delete lists, dead before or not. It can therefore name a value that
a row holds which the commit does not touch, and then a second row gets that value unnoticed.

`commit_unique_iff` says exactly which batches leave two live rows with one value: those with a `Clash`.
-/

namespace Moraine

open Std (ExtTreeMap ExtTreeSet)
open OrdMap

/-- A live row holds the value under the index. -/
def RowStore.Holds (s : RowStore) (t : Nat) (index : IndexInfo) (r : Nat) (k : CanonicalKey) : Prop :=
  ∃ row, (r, row) ∈ (s.rows t).liveRows s.snapshotId ∧ index.valueKey (s.columns t) t row = some k

/-- The index holds one entry for each live row with no NULL indexed value, and no other. -/
def RowStore.UniqueExact (s : RowStore) (t : Nat) (index : IndexInfo) : Prop :=
  ∀ k r, s.entries.unique[(index.id, k)]? = some r ↔ s.Holds t index r k

namespace StagedBatch

variable (b : StagedBatch) (s : RowStore) (t : Nat) (index : IndexInfo) (r : Nat) (k : CanonicalKey)

/-- A row that holds the value and that the batch leaves alone. -/
def KeepsKey : Prop :=
  ∃ row, b.Survives t (s.rows t) r row s.snapshotId ∧ index.valueKey (s.columns t) t row = some k

/-- A row the batch adds and indexes under the value. -/
def AddsKey : Prop :=
  index.maintenance ≠ .deferred ∧ ∃ row, (b.AddsInline t r row ∨ t ∉ b.compacted ∧ b.AddsFile t (s.rows t) r row) ∧
    index.valueKey (s.columns t) t row = some k

/-- A row that comes in with the value and is not indexed: the index is deferred, the row's file is
    registered by a commit that only compacts the table, or the row is brought back by ending the delete
    file that named it. -/
def AdmitsKey : Prop :=
  ∃ row, (b.Revives t (s.rows t) r row ∨ t ∈ b.compacted ∧ b.AddsFile t (s.rows t) r row ∨
      index.maintenance = .deferred ∧ (b.AddsInline t r row ∨ b.AddsFile t (s.rows t) r row)) ∧
    index.valueKey (s.columns t) t row = some k

/-- A removal the batch derives names the value. -/
def FreesKey : Prop :=
  ∃ r row, (b.RemovesInline t (s.rows t) r row ∨ b.RemovesFile t (s.rows t) r row) ∧
    index.valueKey (s.columns t) t row = some k

/-- Two rows get the value and the commit does not notice: a row it adds takes the value of a row it leaves
    alone, which one of its removals names; or one of the two is not indexed. -/
def Clash (k : CanonicalKey) (r₁ r₂ : Nat) : Prop :=
  b.KeepsKey s t index r₁ k ∧ b.AddsKey s t index r₂ k ∧ b.FreesKey s t index k ∨
    b.AdmitsKey s t index r₂ k ∧
      (b.KeepsKey s t index r₁ k ∨ b.AddsKey s t index r₁ k ∨ b.AdmitsKey s t index r₁ k)

end StagedBatch

section Holds

variable {s s' : RowStore} {b : StagedBatch} {entries : List StagedIndexEntry} {poisoned deferred : List Nat}
  {t : Nat} {index : IndexInfo} {r : Nat} {k : CanonicalKey}

/-- The rows that hold a value after a commit, by where they come from. -/
theorem Commits.holds_iff (h : Commits s b s' entries poisoned deferred)
    (hbound : (s.rows t).inline.Bounded s.snapshotId) :
    s'.Holds t index r k ↔ b.KeepsKey s t index r k ∨ b.AddsKey s t index r k ∨ b.AdmitsKey s t index r k := by
  unfold RowStore.Holds StagedBatch.KeepsKey StagedBatch.AddsKey StagedBatch.AdmitsKey
  rw [h.columns, h.snapshotId]
  simp only [(h.translates t).live_iff hbound h.advances]
  constructor
  · rintro ⟨row, hsurvives | hadds | hadds | hrevives, hk⟩
    · exact .inl ⟨row, hsurvives, hk⟩
    · by_cases hdeferred : index.maintenance = .deferred
      · exact .inr (.inr ⟨row, .inr (.inr ⟨hdeferred, .inl hadds⟩), hk⟩)
      · exact .inr (.inl ⟨hdeferred, row, .inl hadds, hk⟩)
    · by_cases hdeferred : index.maintenance = .deferred
      · exact .inr (.inr ⟨row, .inr (.inr ⟨hdeferred, .inr hadds⟩), hk⟩)
      · by_cases hcompacted : t ∈ b.compacted
        · exact .inr (.inr ⟨row, .inr (.inl ⟨hcompacted, hadds⟩), hk⟩)
        · exact .inr (.inl ⟨hdeferred, row, .inr ⟨hcompacted, hadds⟩, hk⟩)
    · exact .inr (.inr ⟨row, .inl hrevives, hk⟩)
  · rintro (⟨row, hsurvives, hk⟩ | ⟨-, row, hadds | ⟨-, hadds⟩, hk⟩ |
      ⟨row, hrevives | ⟨-, hadds⟩ | ⟨-, hadds | hadds⟩, hk⟩)
    · exact ⟨row, .inl hsurvives, hk⟩
    · exact ⟨row, .inr (.inl hadds), hk⟩
    · exact ⟨row, .inr (.inr (.inl hadds)), hk⟩
    · exact ⟨row, .inr (.inr (.inr hrevives)), hk⟩
    · exact ⟨row, .inr (.inr (.inl hadds)), hk⟩
    · exact ⟨row, .inr (.inl hadds), hk⟩
    · exact ⟨row, .inr (.inr (.inl hadds)), hk⟩

theorem StagedBatch.KeepsKey.holds (h : b.KeepsKey s t index r k) : s.Holds t index r k := by
  obtain ⟨row, hsurvives, hk⟩ := h
  refine ⟨row, (TableRows.mem_liveRows_iff _ _ r row).mpr ?_, hk⟩
  rcases hsurvives with ⟨hlive, -⟩ | ⟨f, file, p, hfile, -, hrow, hdead, -⟩
  · exact .inl hlive
  · exact .inr ⟨f, file, p, hfile, hrow, hdead⟩

/-- The entry of a row that holds a value. -/
theorem IndexInfo.rowEntry_of_valueKey {liveColumns : List Nat} {row : Row}
    (h : index.valueKey liveColumns t row = some k) (delete : Bool) (r : Nat) :
    index.rowEntry liveColumns t delete r row =
      .ok ⟨index.id, index.unique, k, r, delete, index.state ≠ .ready⟩ := by
  unfold valueKey at h
  split at h
  · next key hkey =>
    cases h
    unfold rowEntry
    rw [hkey]
    simp [Except.map]
  · cases h

/-- A unique entry is that of a row that holds its key. -/
theorem IndexInfo.valueKey_of_rowEntry {liveColumns : List Nat} {row : Row} {delete : Bool} {e : StagedIndexEntry}
    (h : index.rowEntry liveColumns t delete r row = .ok e) (hunique : e.unique) :
    index.valueKey liveColumns t row = some e.key := by
  unfold rowEntry at h
  cases hkey : index.rowKey liveColumns t row with
  | error err => rw [hkey] at h; cases h
  | ok x =>
    obtain ⟨key, hasNull⟩ := x
    rw [hkey] at h
    cases h
    cases hasNull with
    | true => simp at hunique
    | false => simp [valueKey, hkey]

/-- An added row holds its value in the index after the commit. -/
theorem Commits.unique_of_addsKey (h : Commits s b s' entries poisoned deferred)
    (hupkeep : Upkeep s b t index entries) (hready : index.state = .ready) (hunique : index.unique)
    (hadds : b.AddsKey s t index r k) : s'.entries.unique[(index.id, k)]? = some r := by
  obtain ⟨hsync, row, hrow, hk⟩ := hadds
  have hfile : b.AddsInline t r row ∨ b.IndexesFile t r row :=
    hrow.imp_right fun ⟨hcompacted, f, file, p, hfile, hp, _, hkills⟩ =>
      ⟨hcompacted, f, file, p, hfile, hp, hkills⟩
  obtain ⟨hmem, hput⟩ := (hupkeep.put_iff _ rfl).mpr ⟨hsync, r, row, hfile, IndexInfo.rowEntry_of_valueKey hk _ r⟩
  exact h.holds_put hupkeep hready hmem rfl hput hunique

/-- A value no removal names keeps its holder. -/
theorem Commits.unique_of_not_freesKey (h : Commits s b s' entries poisoned deferred)
    (hupkeep : Upkeep s b t index entries) (hfrees : ¬ b.FreesKey s t index k)
    (hholder : s.entries.unique[(index.id, k)]? = some r) : s'.entries.unique[(index.id, k)]? = some r := by
  rw [h.stages.unique, if_neg, hholder, Option.some_or]
  rintro ⟨e, he, hdelete, hunique, hkey⟩
  obtain ⟨hid, rfl⟩ := Prod.mk.inj hkey
  obtain ⟨r', row, hremoves, hentry⟩ := (hupkeep.removal_iff e hid).mp ⟨he, hdelete⟩
  exact hfrees ⟨r', row, hremoves, IndexInfo.valueKey_of_rowEntry hentry hunique⟩

end Holds

/-- After an accepted staged-row commit no two live rows hold the same value of a ready unique index, if and
    only if the batch has no clash. -/
theorem commit_unique_iff {s s' : RowStore} {store : Bool} {b : StagedBatch} {t : Nat} {index : IndexInfo}
    (hids : s.DistinctIndexes) (hbound : (s.rows t).inline.Bounded s.snapshotId) (hindex : index ∈ s.indexesOf t)
    (hready : index.state = .ready) (hunique : index.unique) (hexact : s.UniqueExact t index)
    (hcommit : s.commit store b = .ok s') :
    (∀ k r₁ r₂, s'.Holds t index r₁ k → s'.Holds t index r₂ k → r₁ = r₂) ↔
      ¬ ∃ k r₁ r₂, r₁ ≠ r₂ ∧ b.Clash s t index k r₁ r₂ := by
  obtain ⟨entries, poisoned, deferred, hentries, h⟩ := RowStore.commit_ok hcommit
  have hupkeep := upkeepEntries_upkeep hids hindex hentries
  simp only [h.holds_iff hbound]
  constructor
  · rintro hdistinct ⟨k, r₁, r₂, hne, ⟨hkeeps, hadds, -⟩ | ⟨hadmits, hother⟩⟩
    · exact hne (hdistinct k r₁ r₂ (.inl hkeeps) (.inr (.inl hadds)))
    · exact hne (hdistinct k r₁ r₂ hother (.inr (.inr hadmits)))
  · intro hclash k r₁ r₂ h₁ h₂
    by_contra hne
    -- A row that was added under a value some row keeps got it only because a removal named the value.
    have hadded : ∀ {r r'}, r ≠ r' → b.KeepsKey s t index r k → ¬ b.AddsKey s t index r' k := by
      intro r r' hne hkeeps hadds
      refine hclash ⟨k, r, r', hne, .inl ⟨hkeeps, hadds, ?_⟩⟩
      by_contra hfrees
      have hkept := h.unique_of_not_freesKey hupkeep hfrees ((hexact k r).mpr hkeeps.holds)
      rw [h.unique_of_addsKey hupkeep hready hunique hadds] at hkept
      exact hne (Option.some.inj hkept).symm
    rcases h₂ with hkeeps₂ | hadds₂ | hadmits₂
    · rcases h₁ with hkeeps₁ | hadds₁ | hadmits₁
      · have hholder := (hexact k r₁).mpr hkeeps₁.holds
        rw [(hexact k r₂).mpr hkeeps₂.holds] at hholder
        exact hne (Option.some.inj hholder).symm
      · exact hadded (Ne.symm hne) hkeeps₂ hadds₁
      · exact hclash ⟨k, r₂, r₁, Ne.symm hne, .inr ⟨hadmits₁, .inl hkeeps₂⟩⟩
    · rcases h₁ with hkeeps₁ | hadds₁ | hadmits₁
      · exact hadded hne hkeeps₁ hadds₂
      · have hholder := h.unique_of_addsKey hupkeep hready hunique hadds₁
        rw [h.unique_of_addsKey hupkeep hready hunique hadds₂] at hholder
        exact hne (Option.some.inj hholder).symm
      · exact hclash ⟨k, r₂, r₁, Ne.symm hne, .inr ⟨hadmits₁, .inr (.inl hadds₂)⟩⟩
    · exact hclash ⟨k, r₁, r₂, hne, .inr ⟨hadmits₂, h₁⟩⟩

/-! ## A value handed over, and a value taken from a row that keeps it -/

namespace Handover

/-- A unique index on the one column of table 1. -/
def definition : IndexValue :=
  { (default : IndexValue) with indexId := 10, tableId := 1, indexName := "flag", columnIds := [1], unique := true }

def off : Row := [some (.bool false)]

def on : Row := [some (.bool true)]

def keyOff : CanonicalKey := [0, 1, 0, 0]

def keyOn : CanonicalKey := [0, 1, 1, 0]

/-- Row 5 holds `off` and row 7 holds `on`. -/
def held : RowStore :=
  { snapshotId := 1
    indexes := [definition]
    columns := fun _ => [1]
    rows := fun t =>
      if t = 1 then
        { inline := { chunks := (ExtTreeMap.empty.insert (0, 1, 0) ⟨5, [off]⟩).insert (0, 1, 1) ⟨7, [on]⟩ } }
      else {}
    entries := { unique := (ExtTreeMap.empty.insert (10, keyOff) 5).insert (10, keyOn) 7 } }

/-- Row 5 is deleted and row 9 inserted with the value it frees. -/
def handover : StagedBatch :=
  { snapshotId := 2, ops := [.inlineInlineDelete 1 5, .inlineInsert 1 0 9 [off]] }

/-- Row 5 is updated to the value row 7 holds. -/
def update : StagedBatch :=
  { snapshotId := 2, ops := [.inlineInlineDelete 1 5, .inlineInsert 1 0 5 [on]] }

private theorem valueKey_off : (indexInfo definition).valueKey [1] 1 off = some keyOff := by decide +kernel

private theorem valueKey_on : (indexInfo definition).valueKey [1] 1 on = some keyOn := by decide +kernel

private theorem distinctIndexes_held : held.DistinctIndexes := List.nodup_singleton _

private theorem bounded_held : (held.rows 1).inline.Bounded held.snapshotId := by
  refine ⟨fun key hkey => ?_, fun rowId e he => ?_⟩
  · simp only [held, if_true, getElem?_insert_ite] at hkey
    by_cases h₁ : key = (0, 1, 1)
    · exact h₁ ▸ le_rfl
    · by_cases h₂ : key = (0, 1, 0)
      · exact h₂ ▸ le_rfl
      · simp [h₁, h₂] at hkey
  · simp [held] at he

private theorem definition_mem_held : indexInfo definition ∈ held.indexesOf 1 := List.mem_singleton.mpr rfl

private theorem liveRows_held : (held.rows 1).liveRows held.snapshotId = [(5, off), (7, on)] := by decide +kernel

private theorem uniqueExact_held : held.UniqueExact 1 (indexInfo definition) := by
  intro k r
  have hholds : held.Holds 1 (indexInfo definition) r k ↔ r = 5 ∧ k = keyOff ∨ r = 7 ∧ k = keyOn := by
    unfold RowStore.Holds
    rw [liveRows_held]
    simp [held, valueKey_off, valueKey_on, eq_comm, or_and_right, exists_or]
  have hid : (indexInfo definition).id = 10 := rfl
  rw [hholds, hid]
  simp only [held, getElem?_insert_ite, Prod.mk.injEq, true_and]
  by_cases hon : k = keyOn
  · subst hon
    simp [show keyOn ≠ keyOff by decide, eq_comm]
  · by_cases hoff : k = keyOff
    · subst hoff
      simp [show keyOff ≠ keyOn by decide, eq_comm]
    · simp [hon, hoff]

/-- The rows live after a commit on `held`. -/
private theorem commit_held (b : StagedBatch) (live : List (Nat × Row))
    (h : (held.commit true b).toOption.map (fun s => (s.rows 1).liveRows s.snapshotId) = some live) :
    ∃ s', held.commit true b = .ok s' ∧ (s'.rows 1).liveRows s'.snapshotId = live ∧ s'.columns = fun _ => [1] := by
  cases hcommit : held.commit true b with
  | error e => rw [hcommit] at h; cases h
  | ok s' =>
    obtain ⟨entries, poisoned, deferred, -, hcommits⟩ := RowStore.commit_ok hcommit
    rw [hcommit] at h
    exact ⟨s', rfl, Option.some.inj h, hcommits.columns⟩

/-- `commit_unique_iff` at a batch that hands a value over, where both sides hold. -/
theorem commit_unique_iff_handover : ∃ s', held.commit true handover = .ok s' ∧
    (∀ k r₁ r₂, s'.Holds 1 (indexInfo definition) r₁ k → s'.Holds 1 (indexInfo definition) r₂ k → r₁ = r₂) ∧
      ¬ ∃ k r₁ r₂, r₁ ≠ r₂ ∧ handover.Clash held 1 (indexInfo definition) k r₁ r₂ := by
  obtain ⟨s', hcommit, hlive, hcolumns⟩ := commit_held handover [(7, on), (9, off)] (by decide +kernel)
  have hdistinct : ∀ k r₁ r₂, s'.Holds 1 (indexInfo definition) r₁ k → s'.Holds 1 (indexInfo definition) r₂ k →
      r₁ = r₂ := by
    unfold RowStore.Holds
    rw [hlive, hcolumns]
    rintro k r₁ r₂ ⟨row₁, hmem₁, hk₁⟩ ⟨row₂, hmem₂, hk₂⟩
    have hne : keyOn ≠ keyOff := by decide
    simp only [List.mem_cons, Prod.mk.injEq, List.not_mem_nil, or_false] at hmem₁ hmem₂
    rcases hmem₁ with ⟨rfl, rfl⟩ | ⟨rfl, rfl⟩ <;> rcases hmem₂ with ⟨rfl, rfl⟩ | ⟨rfl, rfl⟩ <;>
      simp_all [valueKey_off, valueKey_on]
  exact ⟨s', hcommit, hdistinct, (commit_unique_iff distinctIndexes_held bounded_held definition_mem_held rfl rfl
    uniqueExact_held hcommit).mp hdistinct⟩

/-- The index is exact before and the batch is accepted, and after it rows 5 and 7 both hold `on`: the
    removal derived from the chunk being inserted frees the value row 7 holds. -/
theorem update_duplicates_value :
    indexInfo definition ∈ held.indexesOf 1 ∧ (indexInfo definition).state = .ready ∧ (indexInfo definition).unique ∧
      held.UniqueExact 1 (indexInfo definition) ∧
      ∃ s', held.commit true update = .ok s' ∧ s'.Holds 1 (indexInfo definition) 5 keyOn ∧
        s'.Holds 1 (indexInfo definition) 7 keyOn := by
  obtain ⟨s', hcommit, hlive, hcolumns⟩ := commit_held update [(5, on), (7, on)] (by decide +kernel)
  refine ⟨definition_mem_held, rfl, rfl, uniqueExact_held, s', hcommit, ⟨on, ?_, ?_⟩, ⟨on, ?_, ?_⟩⟩
  · rw [hlive]; simp
  · rw [hcolumns]; exact valueKey_on
  · rw [hlive]; simp
  · rw [hcolumns]; exact valueKey_on

end Handover

end Moraine
