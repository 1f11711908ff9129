-- SUMMARY: Resolving a batch's index entries in probe groups is adding them one at a time.
import Moraine.Transaction.IndexMaintenance

/-!
# Adding entries one at a time

`addSequentially` is the check a reader expects: the removed entries go first, then the others are added in order, each
against what is stored by then. `stageIndexEntries` collapses repeated claims in memory and reads the store a group of
probes at a time. Both are determined by who holds each value at the end (`holderAfter`): the stored row, or else the
first claimant. A claim that collides in memory need not collide with that row, but then the first claim of the value
does, in the same index.
-/

namespace Moraine

open Std (ExtTreeMap ExtTreeSet)
open OrdMap

namespace IndexEntries

/-! ## The sequential check -/

/-- Adds one entry. A value another row holds rejects it, or drops it and poisons the index that is still building. -/
def put (s : IndexEntries) (poisoned : List Nat) (e : StagedIndexEntry) : Except Error (IndexEntries × List Nat) :=
  if !e.unique then .ok ({ s with multi := s.multi.insert e.multiKey }, poisoned)
  else
    match s.unique[e.uniqueKey]? with
    | none => .ok ({ s with unique := s.unique.insert e.uniqueKey e.rowId }, poisoned)
    | some holder =>
      if holder = e.rowId then .ok (s, poisoned)
      else (collision e.indexId e.building poisoned).map fun poisoned => (s, poisoned)

def putAll : List StagedIndexEntry → IndexEntries × List Nat → Except Error (IndexEntries × List Nat)
  | [], result => .ok result
  | e :: adds, (s, poisoned) => (s.put poisoned e).bind (putAll adds)

/-- Removes all the removed entries and then adds the others one at a time, in order. -/
def addSequentially (s : IndexEntries) (entries : List StagedIndexEntry) : Except Error (IndexEntries × List Nat) :=
  (putAll (entries.filter (!·.delete)) ((entries.filter (·.delete)).foldl delete s, [])).map
    fun (s, poisoned) => (s, (ExtTreeSet.ofList poisoned).toList)

/-! ## What it does to each key -/

section Puts

variable {s t : IndexEntries} {adds : List StagedIndexEntry} {e : StagedIndexEntry} {poisoned : List Nat}

/-- Later claims of a value that is claimed do not change its holder. -/
theorem holderAfter_append_of_mem (rest : List StagedIndexEntry) (he : e ∈ adds) (hu : e.unique) :
    s.holderAfter (adds ++ rest) e.uniqueKey = s.holderAfter adds e.uniqueKey := by
  obtain ⟨r, hr⟩ := firstClaim_of_mem he hu
  rw [holderAfter, holderAfter, firstClaim_append_eq, hr, Option.some_or]

/-- A put of an index that is not building whose value another row holds. -/
def Rejects (s : IndexEntries) (adds : List StagedIndexEntry) : Prop :=
  ∃ e ∈ adds, e.unique ∧ e.building = false ∧ s.holderAfter adds e.uniqueKey ≠ some e.rowId

theorem Rejects.append (h : Rejects s adds) (rest : List StagedIndexEntry) : Rejects s (adds ++ rest) := by
  obtain ⟨e, he, hu, hb, hne⟩ := h
  exact ⟨e, List.mem_append_left _ he, hu, hb, by rwa [holderAfter_append_of_mem rest he hu]⟩

/-- The state of the check after the puts `adds`. -/
structure Added (s : IndexEntries) (adds : List StagedIndexEntry) (t : IndexEntries) (poisoned : List Nat) : Prop where
  unique : ∀ k, t.unique[k]? = s.holderAfter adds k
  multi : ∀ k, k ∈ t.multi ↔ k ∈ s.multi ∨ ∃ e ∈ adds, !e.unique ∧ e.multiKey = k
  poisoned : ∀ i, i ∈ poisoned ↔
    ∃ e ∈ adds, e.unique ∧ e.building ∧ e.indexId = i ∧ s.holderAfter adds e.uniqueKey ≠ some e.rowId
  accepted : ¬ Rejects s adds

theorem added_nil : Added s [] s [] :=
  ⟨by simp [holderAfter, firstClaim], by simp, by simp, by simp [Rejects]⟩

theorem holderAfter_append_one (s : IndexEntries) (adds : List StagedIndexEntry) (e : StagedIndexEntry)
    (k : Nat × CanonicalKey) : s.holderAfter (adds ++ [e]) k =
      (s.holderAfter adds k).or (if e.unique ∧ e.uniqueKey = k then some e.rowId else none) := by
  rw [holderAfter, holderAfter, firstClaim_append, Option.or_assoc]

/-- The puts that collide after another one: those that did, and the new one if it does. -/
theorem exists_collision_append (s : IndexEntries) (adds : List StagedIndexEntry) (e : StagedIndexEntry)
    (p : StagedIndexEntry → Prop) :
    (∃ e' ∈ adds ++ [e], e'.unique ∧ p e' ∧ s.holderAfter (adds ++ [e]) e'.uniqueKey ≠ some e'.rowId) ↔
      (∃ e' ∈ adds, e'.unique ∧ p e' ∧ s.holderAfter adds e'.uniqueKey ≠ some e'.rowId) ∨
        e.unique ∧ p e ∧ s.holderAfter (adds ++ [e]) e.uniqueKey ≠ some e.rowId := by
  have hkept : ∀ e' ∈ adds, e'.unique → s.holderAfter (adds ++ [e]) e'.uniqueKey = s.holderAfter adds e'.uniqueKey :=
    fun e' => holderAfter_append_of_mem [e]
  constructor
  · rintro ⟨e', he', hu, hp, hne⟩
    rcases List.mem_append.mp he' with he' | he'
    · exact .inl ⟨e', he', hu, hp, by rwa [← hkept e' he' hu]⟩
    · obtain rfl := List.mem_singleton.mp he'
      exact .inr ⟨hu, hp, hne⟩
  · rintro (⟨e', he', hu, hp, hne⟩ | hnew)
    · exact ⟨e', List.mem_append_left _ he', hu, hp, by rwa [hkept e' he' hu]⟩
    · exact ⟨e, by simp, hnew⟩

/-- One more put: what must be said of it alone. -/
theorem Added.append (h : Added s adds t poisoned) {t' : IndexEntries} {poisoned' : List Nat}
    (hunique : ∀ k, t'.unique[k]? = s.holderAfter (adds ++ [e]) k)
    (hmulti : ∀ k, k ∈ t'.multi ↔ k ∈ t.multi ∨ !e.unique ∧ e.multiKey = k)
    (hpoisoned : ∀ i, i ∈ poisoned' ↔ i ∈ poisoned ∨
      e.unique ∧ (e.building ∧ e.indexId = i) ∧ s.holderAfter (adds ++ [e]) e.uniqueKey ≠ some e.rowId)
    (haccepted : e.unique → e.building = false → s.holderAfter (adds ++ [e]) e.uniqueKey = some e.rowId) :
    Added s (adds ++ [e]) t' poisoned' := by
  refine ⟨hunique, fun k => ?_, fun i => ?_, fun hrejects => ?_⟩
  · rw [hmulti, h.multi]
    simp [or_and_right, exists_or, or_assoc]
  · have hall := exists_collision_append s adds e fun e' => e'.building ∧ e'.indexId = i
    simp only [and_assoc] at hall hpoisoned
    rw [hpoisoned, h.poisoned, hall]
  · rcases (exists_collision_append s adds e fun e' => e'.building = false).mp hrejects with hold | ⟨hu, hb, hne⟩
    · exact h.accepted hold
    · exact hne (haccepted hu hb)

/-- Adding one entry keeps the description of the state, or rejects. -/
theorem Added.put (h : Added s adds t poisoned) (e : StagedIndexEntry) :
    match t.put poisoned e with
    | .ok (t', poisoned') => Added s (adds ++ [e]) t' poisoned'
    | .error _ => Rejects s (adds ++ [e]) := by
  rw [IndexEntries.put]
  cases hu : e.unique with
  | false =>
    have hsame (k : Nat × CanonicalKey) : s.holderAfter (adds ++ [e]) k = s.holderAfter adds k := by
      simp [holderAfter_append_one, hu]
    refine h.append (fun k => ?_) (fun k => ?_) (fun i => ?_) ?_
    · rw [hsame]
      exact h.unique k
    · simp [ExtTreeSet.mem_insert, hu, or_comm]
    · simp [hu]
    · simp [hu]
  | true =>
    have hheld := holderAfter_append_one s adds e
    simp only [hu, true_and] at hheld
    cases hk : t.unique[e.uniqueKey]? with
    | none =>
      rw [h.unique] at hk
      have hnew : s.holderAfter (adds ++ [e]) e.uniqueKey = some e.rowId := by
        rw [hheld, hk, if_pos rfl, Option.none_or]
      refine h.append (fun k => ?_) (by simp [hu]) (by simp [hnew]) fun _ _ => hnew
      rw [getElem?_insert_ite, hheld]
      by_cases hkey : k = e.uniqueKey
      · rw [if_pos hkey, hkey, hk, if_pos rfl, Option.none_or]
      · rw [if_neg hkey, if_neg (Ne.symm hkey), Option.or_none, h.unique]
    | some holder =>
      have hholder := (h.unique _).symm.trans hk
      have hkept : s.holderAfter (adds ++ [e]) e.uniqueKey = some holder := by
        rw [hheld, hholder, Option.some_or]
      have hsame (k : Nat × CanonicalKey) : t.unique[k]? = s.holderAfter (adds ++ [e]) k := by
        rw [h.unique, hheld]
        by_cases hkey : e.uniqueKey = k
        · rw [← hkey, hholder, Option.some_or]
        · rw [if_neg hkey, Option.or_none]
      simp only [Bool.not_true, Bool.false_eq_true, if_false]
      by_cases hrow : holder = e.rowId
      · rw [if_pos hrow]
        refine h.append hsame (by simp [hu]) ?_ fun _ _ => hrow ▸ hkept
        simp [hkept, hrow]
      · rw [if_neg hrow, collision]
        cases hb : e.building with
        | true =>
          refine h.append hsame (by simp [hu]) (fun i => ?_) (by simp [hb])
          simp [hu, hb, hkept, hrow, eq_comm]
        | false => exact ⟨e, by simp, hu, hb, by simpa [hkept] using hrow⟩

theorem Added.putAll (h : Added s adds t poisoned) (rest : List StagedIndexEntry) :
    match IndexEntries.putAll rest (t, poisoned) with
    | .ok (t', poisoned') => Added s (adds ++ rest) t' poisoned'
    | .error _ => Rejects s (adds ++ rest) := by
  induction rest generalizing adds t poisoned with
  | nil => simpa [IndexEntries.putAll] using h
  | cons e rest ih =>
    have hput := h.put e
    rw [IndexEntries.putAll]
    cases hresult : t.put poisoned e with
    | error err =>
      rw [hresult] at hput
      simpa [Except.bind] using hput.append rest
    | ok result =>
      rw [hresult] at hput
      simpa [Except.bind] using ih hput

end Puts

/-! ## The two checks agree -/

section Agreement

variable {s : IndexEntries} {entries : List StagedIndexEntry}

theorem heldAfter_eq (s : IndexEntries) (entries : List StagedIndexEntry) (k : Nat × CanonicalKey) :
    s.heldAfter entries k =
      ((entries.filter (·.delete)).foldl delete s).holderAfter (entries.filter (!·.delete)) k := by
  rw [heldAfter, holderAfter, foldl_delete_unique]
  simp only [List.mem_filter, and_assoc]

/-- Rejection, in the terms of the whole batch. -/
theorem rejects_iff : Rejects ((entries.filter (·.delete)).foldl delete s) (entries.filter (!·.delete)) ↔
    ∃ e ∈ entries, !e.delete ∧ e.unique ∧ e.building = false ∧ s.heldAfter entries e.uniqueKey ≠ some e.rowId := by
  simp only [Rejects, heldAfter_eq, List.mem_filter, and_assoc]

/-- An accepted batch rejects nothing. -/
theorem not_rejects_of_ok {building : Nat → Bool} (hbuilding : ∀ e ∈ entries, e.building = building e.indexId)
    {s' : IndexEntries} {poisoned : List Nat} (h : s.stageIndexEntries entries = .ok (s', poisoned)) :
    ¬ Rejects ((entries.filter (·.delete)).foldl delete s) (entries.filter (!·.delete)) := by
  intro hrejects
  obtain ⟨e, he, hput, hu, hb, hne⟩ := rejects_iff.mp hrejects
  have hpoisoned := (mem_poisoned_iff h e.indexId).mpr ⟨e, he, hput, hu, rfl, hne⟩
  obtain ⟨e', he', -, -, hb', hindex, -⟩ := (stageIndexEntries_stagesTo h).cause _ hpoisoned
  rw [hbuilding e' he', hindex, ← hbuilding e he, hb] at hb'
  cases hb'

/-- A refused batch within the limit rejects. -/
theorem rejects_of_error {building : Nat → Bool} (hbuilding : ∀ e ∈ entries, e.building = building e.indexId)
    (hlen : entries.length ≤ MAX_INDEX_ENTRIES_PER_COMMIT) {err : Error}
    (h : s.stageIndexEntries entries = .error err) :
    Rejects ((entries.filter (·.delete)).foldl delete s) (entries.filter (!·.delete)) := by
  rcases refused_of_stageIndexEntries h with hlong | ⟨e, he, hput, hu, hb, hne⟩
  · omega
  · obtain ⟨e', he', hput', hu', hindex, hne'⟩ := collides_of_claimed he hput hu hne
    refine rejects_iff.mpr ⟨e', he', hput', hu', ?_, hne'⟩
    rw [hbuilding e' he', hindex, ← hbuilding e he, hb]

/-- An accepted batch leaves what adding the entries one at a time leaves. -/
theorem eq_of_added {s' t : IndexEntries} {poisoned poisonedSeq : List Nat}
    (h : s.stageIndexEntries entries = .ok (s', poisoned))
    (hadded : Added ((entries.filter (·.delete)).foldl delete s) (entries.filter (!·.delete)) t poisonedSeq) :
    s' = t ∧ poisoned = (ExtTreeSet.ofList poisonedSeq).toList := by
  have hstages := stageIndexEntries_stagesTo h
  constructor
  · have hunique : s'.unique = t.unique := by
      refine ExtTreeMap.ext_getElem? fun k => ?_
      rw [hadded.unique, ← heldAfter_eq]
      exact hstages.unique k
    have hmulti : s'.multi = t.multi := by
      refine ExtTreeSet.ext_mem fun k => ?_
      rw [hstages.multi, hadded.multi, mem_foldl_delete_multi, or_comm]
      simp only [List.mem_filter, and_assoc]
    cases s'
    cases t
    simp_all
  · obtain ⟨set, rfl⟩ := poisoned_eq_toList h
    congr 1
    refine ExtTreeSet.ext_mem fun i => ?_
    rw [← ExtTreeSet.mem_toList, mem_poisoned_iff h, Collides, ExtTreeSet.mem_ofList, List.contains_iff_mem,
      hadded.poisoned]
    constructor
    · rintro ⟨e, he, hput, hu, hindex, hne⟩
      rw [heldAfter_eq] at hne
      have hadd : e ∈ entries.filter (!·.delete) := List.mem_filter.mpr ⟨he, hput⟩
      refine ⟨e, hadd, hu, ?_, hindex, hne⟩
      by_contra hb
      exact hadded.accepted ⟨e, hadd, hu, by simpa using hb, hne⟩
    · rintro ⟨e, hadd, hu, -, hindex, hne⟩
      obtain ⟨he, hput⟩ := List.mem_filter.mp hadd
      exact ⟨e, he, hput, hu, hindex, by rwa [heldAfter_eq]⟩

end Agreement

/-- Up to the limit of entries a commit may stage, resolving a batch in probe groups accepts what adding its entries
    one at a time accepts, leaves the same entries and poisons the same indexes. A longer batch is refused unread. -/
theorem stageIndexEntries_eq_addSequentially (s : IndexEntries) (entries : List StagedIndexEntry)
    (building : Nat → Bool)
    (hbuilding : ∀ e ∈ entries, e.building = building e.indexId) :
    (entries.length ≤ MAX_INDEX_ENTRIES_PER_COMMIT →
      (s.stageIndexEntries entries).toOption = (s.addSequentially entries).toOption) ∧
    (MAX_INDEX_ENTRIES_PER_COMMIT < entries.length →
      s.stageIndexEntries entries = .error (oversizedCommit entries.length)) := by
  constructor
  · intro hlen
    have hadded := (added_nil (s := (entries.filter (·.delete)).foldl delete s)).putAll (entries.filter (!·.delete))
    rw [List.nil_append] at hadded
    cases hseq : putAll (entries.filter (!·.delete)) ((entries.filter (·.delete)).foldl delete s, []) with
    | error errSeq =>
      rw [hseq] at hadded
      cases hstage : s.stageIndexEntries entries with
      | error err => simp [addSequentially, hseq, Except.map, Except.toOption]
      | ok result => exact absurd hadded (not_rejects_of_ok hbuilding hstage)
    | ok resultSeq =>
      rw [hseq] at hadded
      cases hstage : s.stageIndexEntries entries with
      | error err => exact absurd (rejects_of_error hbuilding hlen hstage) hadded.accepted
      | ok result =>
        obtain ⟨hentries, hpoisoned⟩ := eq_of_added hstage hadded
        simp [addSequentially, hseq, Except.map, Except.toOption, ← hentries, ← hpoisoned]
  · intro hlong
    rw [stageIndexEntries, if_pos hlong]

/-! A batch that moves a value of index 1, which is ready, to another row, and claims one that is held in index 2, which
    is building. -/

namespace MovedValue

def stored : IndexEntries := { unique := ExtTreeMap.empty.insert (1, [7]) 3 |>.insert (2, [7]) 3 }

def batch : List StagedIndexEntry :=
  [{ indexId := 1, unique := true, key := [7], rowId := 4, delete := false, building := false },
    { indexId := 1, unique := true, key := [7], rowId := 3, delete := true, building := false },
    { indexId := 2, unique := true, key := [7], rowId := 5, delete := false, building := true }]

end MovedValue

/-- Both checks treat the moved value and the held one alike. -/
theorem moved_value_staged_as_added :
    (MovedValue.stored.stageIndexEntries MovedValue.batch).toOption =
      (MovedValue.stored.addSequentially MovedValue.batch).toOption :=
  (stageIndexEntries_eq_addSequentially MovedValue.stored MovedValue.batch (· = 2) (by simp [MovedValue.batch])).1
    (by decide)

/-- Row 3 holds the value in index 1. Row 4 claims it by an entry that says the index is building, and then row 3 by one
    that says it is ready. -/
def mixedFlags : List StagedIndexEntry :=
  [{ indexId := 1, unique := true, key := [7], rowId := 4, delete := false, building := true },
    { indexId := 1, unique := true, key := [7], rowId := 3, delete := false, building := false }]

/-- Entries of one index whose flags differ are treated otherwise: the second claim collides with the first in memory
    and is refused, although the row that makes it holds the value. -/
theorem mixed_flags_refused :
    (MovedValue.stored.stageIndexEntries mixedFlags).toOption = none ∧
      (MovedValue.stored.addSequentially mixedFlags).toOption = some (MovedValue.stored, [1]) :=
  ⟨by decide +kernel, rfl⟩

/-- A put of a non-unique index. -/
def plainPut : StagedIndexEntry :=
  { indexId := 1, unique := false, key := [], rowId := 3, delete := false, building := false }

/-- Puts of non-unique indexes never collide. -/
theorem addSequentially_replicate (n : Nat) : (addSequentially {} (List.replicate n plainPut)).toOption ≠ none := by
  have hadded := (added_nil (s := {})).putAll (List.replicate n plainPut)
  rw [addSequentially, List.filter_replicate_of_pos (by decide), List.filter_replicate_of_neg (by decide)]
  cases hseq : putAll (List.replicate n plainPut) ({}, []) with
  | error err =>
    rw [hseq, List.nil_append] at hadded
    obtain ⟨e, he, hu, -⟩ := hadded
    rw [List.eq_of_mem_replicate he] at hu
    cases hu
  | ok result =>
    rw [List.foldl_nil, hseq]
    simp [Except.map, Except.toOption]

/-- A batch of one entry more than a commit may stage is refused, although adding the entries one at a time accepts
    it. -/
theorem oversized_batch_refused :
    (stageIndexEntries {} (List.replicate 8000001 plainPut)).toOption = none ∧
      (addSequentially {} (List.replicate 8000001 plainPut)).toOption ≠ none := by
  constructor
  · rw [stageIndexEntries, if_pos (by rw [List.length_replicate]; decide)]
    rfl
  · exact addSequentially_replicate 8000001

end IndexEntries

end Moraine
