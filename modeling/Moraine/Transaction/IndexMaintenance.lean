-- SUMMARY: Resolving a batch's index entries onto the stored ones, with uniqueness enforced at commit.
import Moraine.Transaction.Verbs

/-!
# Index entry maintenance

Entries ride the batch of the commit that owns them. A unique entry's store key is the value and its store
value the holding row; a non-unique entry's key also carries the row. Deletes are staged first, so a value
the batch deletes is free for it. Each unique value is probed once for its first claimant: held by another
row it is a collision, which fails the commit, or poisons the index if it is still being built.

`StagesTo` says what a batch that was resolved without an error did to every key.
-/

namespace Moraine

open Std (ExtTreeMap ExtTreeSet TransOrd LawfulEqOrd)
open OrdMap

/-- The stored index entries. The two kinds are separate ranges of the store. -/
structure IndexEntries where
  /-- The holding row of each unique index's value. -/
  unique : ExtTreeMap (Nat × CanonicalKey) Nat := ∅
  multi : ExtTreeSet (Nat × CanonicalKey × Nat) := ∅

namespace StagedIndexEntry

/-- The store key of a unique entry. -/
def uniqueKey (e : StagedIndexEntry) : Nat × CanonicalKey := (e.indexId, e.key)

/-- The store key of a non-unique entry. -/
def multiKey (e : StagedIndexEntry) : Nat × CanonicalKey × Nat := (e.indexId, e.key, e.rowId)

end StagedIndexEntry

/-- How many probes are gathered before they are run and resolved. -/
def UNIQUENESS_PROBE_GROUP : Nat := 1024

/-- The most entries one commit may stage. -/
def MAX_INDEX_ENTRIES_PER_COMMIT : Nat := 8000000

/-- One unique put awaiting its probe. -/
structure PendingProbe where
  key : Nat × CanonicalKey
  rowId : Nat
  indexId : Nat
  building : Bool

def uniqueViolation (indexId : Nat) : Error :=
  .constraint s!"duplicate value violates equality index {indexId}"

def oversizedCommit (staged : Nat) : Error :=
  let gib := (staged + 512 * 1024) / (1024 * 1024)
  .constraint (s!"commit stages {staged} equality-index entries, above the " ++
    s!"{MAX_INDEX_ENTRIES_PER_COMMIT} a single commit allows; at about a kilobyte " ++
    s!"apiece in the store's write path it would need roughly {gib} GiB of " ++
    s!"memory. Split the work into several smaller commits.")

/-- A collision's verdict: fail the commit, or poison the index that is still building. -/
def collision (indexId : Nat) (building : Bool) (poisoned : List Nat) : Except Error (List Nat) :=
  if building then .ok (poisoned ++ [indexId]) else .error (uniqueViolation indexId)

namespace IndexEntries

/-- Stages one removal. -/
def delete (s : IndexEntries) (e : StagedIndexEntry) : IndexEntries :=
  if e.unique then { s with unique := s.unique.erase e.uniqueKey }
  else { s with multi := s.multi.erase e.multiKey }

/-- Resolves probed puts in order. Held by another row is a collision, which drops the claim; held by the
    same row stages nothing. -/
def resolveHeld (s : IndexEntries) (poisoned : List Nat) :
    List (PendingProbe × Option Nat) → Except Error (IndexEntries × List Nat)
  | [] => .ok (s, poisoned)
  | (probe, some holder) :: rest =>
    if holder ≠ probe.rowId then
      match collision probe.indexId probe.building poisoned with
      | .error e => .error e
      | .ok poisoned => resolveHeld s poisoned rest
    else resolveHeld s poisoned rest
  | (probe, none) :: rest =>
    resolveHeld { s with unique := s.unique.insert probe.key probe.rowId } poisoned rest

/-- Probes one group of unique puts and stages the survivors. A value the batch deletes needs no read. -/
def resolveProbes (s : IndexEntries) (deletedUnique : List (Nat × CanonicalKey)) (pending : List PendingProbe)
    (poisoned : List Nat) : Except Error (IndexEntries × List Nat) :=
  s.resolveHeld poisoned <| pending.map fun probe =>
    (probe, if probe.key ∈ deletedUnique then none else s.unique[probe.key]?)

end IndexEntries

/-- The loop state while a batch's puts are staged. -/
structure Staging where
  entries : IndexEntries
  pending : List PendingProbe := []
  claimed : ExtTreeMap (Nat × CanonicalKey) Nat := ∅
  poisoned : List Nat := []

/-- Stages one put. Non-unique puts go straight in; unique ones collapse to one probe for each key. -/
def Staging.add (st : Staging) (deletedUnique : List (Nat × CanonicalKey)) (e : StagedIndexEntry) :
    Except Error Staging :=
  if !e.unique then
    .ok { st with entries := { st.entries with multi := st.entries.multi.insert e.multiKey } }
  else
    match st.claimed[e.uniqueKey]? with
    | some holder =>
      if holder ≠ e.rowId then
        (collision e.indexId e.building st.poisoned).map fun poisoned => { st with poisoned }
      else .ok st
    | none =>
      let claimed := st.claimed.insert e.uniqueKey e.rowId
      let pending := st.pending ++ [⟨e.uniqueKey, e.rowId, e.indexId, e.building⟩]
      if pending.length ≥ UNIQUENESS_PROBE_GROUP then
        (st.entries.resolveProbes deletedUnique pending st.poisoned).map fun (entries, poisoned) =>
          { entries, pending := [], claimed, poisoned }
      else .ok { st with claimed, pending }

def Staging.addAll (deletedUnique : List (Nat × CanonicalKey)) :
    List StagedIndexEntry → Staging → Except Error Staging
  | [], st => .ok st
  | e :: entries, st =>
    match st.add deletedUnique e with
    | .error err => .error err
    | .ok st => addAll deletedUnique entries st

/-- Resolves a batch's entries onto the stored ones. Returns the indexes a collision poisoned, sorted and
    without duplicates. -/
def IndexEntries.stageIndexEntries (s : IndexEntries) (entries : List StagedIndexEntry) :
    Except Error (IndexEntries × List Nat) :=
  if entries.length > MAX_INDEX_ENTRIES_PER_COMMIT then .error (oversizedCommit entries.length)
  else
    let deletes := entries.filter (·.delete)
    let deletedUnique := (deletes.filter (·.unique)).map (·.uniqueKey)
    match Staging.addAll deletedUnique (entries.filter (!·.delete)) { entries := deletes.foldl delete s } with
    | .error e => .error e
    | .ok st =>
      (st.entries.resolveProbes deletedUnique st.pending st.poisoned).map fun (entries, poisoned) =>
        (entries, (ExtTreeSet.ofList poisoned).toList)

/-- The rows an index holds under a value. -/
def IndexEntries.lookupRowIds (s : IndexEntries) (indexId : Nat) (unique : Bool) (key : CanonicalKey) : List Nat :=
  if unique then s.unique[(indexId, key)]?.toList
  else (s.multi.toList.filter fun x => x.1 = indexId ∧ x.2.1 = key).map fun x => x.2.2

/-! ## What resolving a batch does to each key -/

namespace IndexEntries

/-- What resolving one group of probes does. -/
private structure Resolved (s : IndexEntries) (pending : List PendingProbe) (poisoned : List Nat)
    (s' : IndexEntries) (poisoned' : List Nat) : Prop where
  unique : ∀ k, s'.unique[k]? = s.unique[k]?.or ((pending.find? (·.key = k)).map (·.rowId))
  multi : s'.multi = s.multi
  grows : poisoned ⊆ poisoned'
  settled : ∀ p ∈ pending, s'.unique[p.key]? = some p.rowId ∨ p.building ∧ p.indexId ∈ poisoned'
  cause : ∀ i ∈ poisoned', i ∈ poisoned ∨
    ∃ p ∈ pending, p.building ∧ p.indexId = i ∧ s'.unique[p.key]? ≠ some p.rowId

private theorem resolveHeld_spec {s s' : IndexEntries} {poisoned poisoned' : List Nat}
    {held : List (PendingProbe × Option Nat)} (hheld : ∀ x ∈ held, x.2 = s.unique[x.1.key]?)
    (hnd : (held.map (·.1.key)).Nodup) (h : s.resolveHeld poisoned held = .ok (s', poisoned')) :
    Resolved s (held.map Prod.fst) poisoned s' poisoned' := by
  induction held generalizing s poisoned with
  | nil =>
    cases h
    exact ⟨by simp, rfl, fun _ => id, by simp, fun i hi => .inl hi⟩
  | cons x held ih =>
    obtain ⟨probe, present⟩ := x
    rw [List.map_cons, List.nodup_cons] at hnd
    have hpresent : present = s.unique[probe.key]? := hheld _ List.mem_cons_self
    have hother : ∀ p ∈ held.map Prod.fst, p.key ≠ probe.key := by
      intro p hp heq
      obtain ⟨x, hx, rfl⟩ := List.mem_map.mp hp
      exact hnd.1 (heq ▸ List.mem_map_of_mem hx)
    cases present with
    | none =>
      have hrest : ∀ x ∈ held, x.2 = (s.unique.insert probe.key probe.rowId)[x.1.key]? := by
        intro x hx
        rw [getElem?_insert_ite, if_neg (hother _ (List.mem_map_of_mem hx))]
        exact hheld x (List.mem_cons_of_mem _ hx)
      have hspec := ih hrest hnd.2 h
      have hput : s'.unique[probe.key]? = some probe.rowId := by
        rw [hspec.unique, getElem?_insert_ite, if_pos rfl, Option.some_or]
      refine ⟨fun k => ?_, hspec.multi, hspec.grows, ?_, fun i hi => ?_⟩
      · by_cases hk : probe.key = k
        · rw [← hk, hput, ← hpresent, List.map_cons, List.find?_cons_of_pos (by simp)]
          rfl
        · rw [hspec.unique, getElem?_insert_ite, if_neg (Ne.symm hk), List.map_cons,
            List.find?_cons_of_neg (by simpa using hk)]
      · intro p hp
        rcases List.mem_cons.mp hp with rfl | hp
        · exact .inl hput
        · exact hspec.settled p hp
      · rcases hspec.cause i hi with hi | ⟨p, hp, hcause⟩
        · exact .inl hi
        · exact .inr ⟨p, List.mem_cons_of_mem _ hp, hcause⟩
    | some holder =>
      have hrest : ∀ x ∈ held, x.2 = s.unique[x.1.key]? := fun x hx => hheld x (List.mem_cons_of_mem _ hx)
      have hkept : ∀ {poisoned₁}, Resolved s (held.map Prod.fst) poisoned₁ s' poisoned' →
          s'.unique[probe.key]? = some holder ∧
            ∀ k, s'.unique[k]? = s.unique[k]?.or (((probe :: held.map Prod.fst).find? (·.key = k)).map (·.rowId)) := by
        intro poisoned₁ hspec
        have hholder : s'.unique[probe.key]? = some holder := by
          rw [hspec.unique, ← hpresent, Option.some_or]
        refine ⟨hholder, fun k => ?_⟩
        by_cases hk : probe.key = k
        · rw [← hk, hholder, ← hpresent, Option.some_or]
        · rw [hspec.unique, List.find?_cons_of_neg (by simpa using hk)]
      rw [resolveHeld] at h
      split at h
      · next hne =>
        cases hbuilding : probe.building with
        | false =>
          rw [collision, hbuilding] at h
          cases h
        | true =>
          -- The claim is dropped and the index poisoned.
          rw [collision, hbuilding] at h
          have hspec := ih hrest hnd.2 h
          obtain ⟨hholder, hunique⟩ := hkept hspec
          refine ⟨hunique, hspec.multi, fun i hi => hspec.grows (List.mem_append_left _ hi), ?_, fun i hi => ?_⟩
          · intro p hp
            rcases List.mem_cons.mp hp with rfl | hp
            · exact .inr ⟨hbuilding, hspec.grows (by simp)⟩
            · exact hspec.settled p hp
          · rcases hspec.cause i hi with hi | ⟨p, hp, hcause⟩
            · rcases List.mem_append.mp hi with hi | hi
              · exact .inl hi
              · refine .inr ⟨probe, List.mem_cons_self, hbuilding, (List.mem_singleton.mp hi).symm, ?_⟩
                rw [hholder]
                exact fun heq => hne (Option.some.inj heq)
            · exact .inr ⟨p, List.mem_cons_of_mem _ hp, hcause⟩
      · next heq =>
        have hspec := ih hrest hnd.2 h
        obtain ⟨hholder, hunique⟩ := hkept hspec
        refine ⟨hunique, hspec.multi, hspec.grows, ?_, fun i hi => ?_⟩
        · intro p hp
          rcases List.mem_cons.mp hp with rfl | hp
          · exact .inl (hholder.trans (congrArg some (not_not.mp heq)))
          · exact hspec.settled p hp
        · rcases hspec.cause i hi with hi | ⟨p, hp, hcause⟩
          · exact .inl hi
          · exact .inr ⟨p, List.mem_cons_of_mem _ hp, hcause⟩

private theorem resolveHeld_error {s : IndexEntries} {poisoned : List Nat} {held : List (PendingProbe × Option Nat)}
    {err : Error} (h : s.resolveHeld poisoned held = .error err) :
    ∃ x ∈ held, ∃ holder, x.2 = some holder ∧ holder ≠ x.1.rowId ∧ x.1.building = false := by
  induction held generalizing s poisoned with
  | nil => cases h
  | cons x held ih =>
    have hrest : ∀ {s poisoned}, resolveHeld s poisoned held = .error err →
        ∃ y ∈ x :: held, ∃ holder, y.2 = some holder ∧ holder ≠ y.1.rowId ∧ y.1.building = false := fun h =>
      let ⟨y, hy, hcause⟩ := ih h
      ⟨y, List.mem_cons_of_mem _ hy, hcause⟩
    obtain ⟨probe, _ | holder⟩ := x
    · exact hrest h
    · rw [resolveHeld] at h
      split at h
      next hne =>
        cases hb : probe.building with
        | false => exact ⟨_, List.mem_cons_self, holder, rfl, hne, hb⟩
        | true =>
          rw [collision, hb] at h
          exact hrest h
      · exact hrest h

/-- Probing a group whose deleted keys are already absent. -/
private theorem resolveProbes_spec {s s' : IndexEntries} {deletedUnique : List (Nat × CanonicalKey)}
    {pending : List PendingProbe} {poisoned poisoned' : List Nat}
    (hdeleted : ∀ p ∈ pending, p.key ∈ deletedUnique → s.unique[p.key]? = none)
    (hnd : (pending.map (·.key)).Nodup)
    (h : s.resolveProbes deletedUnique pending poisoned = .ok (s', poisoned')) :
    Resolved s pending poisoned s' poisoned' := by
  have hfst : (pending.map fun probe =>
      (probe, if probe.key ∈ deletedUnique then none else s.unique[probe.key]?)).map Prod.fst = pending := by
    simp [Function.comp_def]
  rw [← hfst]
  refine resolveHeld_spec (fun x hx => ?_) (by simpa [Function.comp_def] using hnd) h
  obtain ⟨probe, hprobe, rfl⟩ := List.mem_map.mp hx
  simp only
  split
  · next hdel => exact (hdeleted probe hprobe hdel).symm
  · rfl

/-- The row that claims a unique value first. -/
def firstClaim (adds : List StagedIndexEntry) (k : Nat × CanonicalKey) : Option Nat :=
  (adds.find? fun e => e.unique ∧ e.uniqueKey = k).map (·.rowId)

section Claims

variable {adds : List StagedIndexEntry} {e : StagedIndexEntry} {k : Nat × CanonicalKey}

theorem firstClaim_append (adds : List StagedIndexEntry) (e : StagedIndexEntry) (k : Nat × CanonicalKey) :
    firstClaim (adds ++ [e]) k =
      (firstClaim adds k).or (if e.unique ∧ e.uniqueKey = k then some e.rowId else none) := by
  rw [firstClaim, List.find?_append, firstClaim]
  cases adds.find? fun e => e.unique ∧ e.uniqueKey = k with
  | some e' => rfl
  | none => by_cases he : e.unique ∧ e.uniqueKey = k <;> simp [he]

theorem firstClaim_append_eq (adds rest : List StagedIndexEntry) (k : Nat × CanonicalKey) :
    firstClaim (adds ++ rest) k = (firstClaim adds k).or (firstClaim rest k) := by
  rw [firstClaim, List.find?_append, firstClaim, firstClaim]
  cases adds.find? fun e => e.unique ∧ e.uniqueKey = k <;> rfl

theorem firstClaim_append_of_some {r : Nat} (h : firstClaim adds k = some r) :
    firstClaim (adds ++ [e]) k = some r := by
  rw [firstClaim_append, h, Option.some_or]

/-- A repeated claim changes no first claim. -/
theorem firstClaim_append_of_claimed (h : e.unique → firstClaim adds e.uniqueKey ≠ none) :
    firstClaim (adds ++ [e]) = firstClaim adds := by
  funext k
  rw [firstClaim_append]
  split
  · next he =>
    obtain ⟨r, hr⟩ := Option.ne_none_iff_exists'.mp (h he.1)
    rw [← he.2, hr, Option.some_or]
  · rw [Option.or_none]

theorem firstClaim_of_mem (he : e ∈ adds) (hunique : e.unique) : ∃ r, firstClaim adds e.uniqueKey = some r := by
  have hsome : (adds.find? fun e' => e'.unique ∧ e'.uniqueKey = e.uniqueKey).isSome := by
    rw [List.find?_isSome]
    exact ⟨e, he, by simp [hunique]⟩
  obtain ⟨e', he'⟩ := Option.isSome_iff_exists.mp hsome
  exact ⟨e'.rowId, by rw [firstClaim, he']; rfl⟩

theorem mem_of_firstClaim {r : Nat} (h : firstClaim adds k = some r) :
    ∃ e ∈ adds, e.unique ∧ e.uniqueKey = k ∧ e.rowId = r := by
  obtain ⟨e, he, hr⟩ := Option.map_eq_some_iff.mp h
  have hp := List.find?_some he
  simp only [decide_eq_true_eq] at hp
  exact ⟨e, List.mem_of_find?_eq_some he, hp.1, hp.2, hr⟩

end Claims

/-- A unique value's holder once the batch's puts are staged: the stored one, or else the first claimant. -/
def holderAfter (s : IndexEntries) (adds : List StagedIndexEntry) (k : Nat × CanonicalKey) : Option Nat :=
  s.unique[k]?.or (firstClaim adds k)

/-- The loop invariant: `st` has staged `adds` onto `s`, up to the pending probes. -/
private structure Staged (s : IndexEntries) (adds : List StagedIndexEntry) (st : Staging) : Prop where
  claimed : ∀ k, st.claimed[k]? = firstClaim adds k
  nodup : (st.pending.map (·.key)).Nodup
  pending : ∀ p ∈ st.pending, p.indexId = p.key.1 ∧ firstClaim adds p.key = some p.rowId ∧
    ∃ e ∈ adds, e.unique ∧ e.uniqueKey = p.key ∧ e.rowId = p.rowId ∧ e.building = p.building
  unique : ∀ k, st.entries.unique[k]? =
    if k ∈ st.pending.map (·.key) then s.unique[k]? else s.holderAfter adds k
  multi : ∀ k, k ∈ st.entries.multi ↔ k ∈ s.multi ∨ ∃ e ∈ adds, !e.unique ∧ e.multiKey = k
  settled : ∀ e ∈ adds, e.unique → e.indexId ∈ st.poisoned ∨ firstClaim adds e.uniqueKey = some e.rowId ∧
    (e.uniqueKey ∈ st.pending.map (·.key) ∨ s.holderAfter adds e.uniqueKey = some e.rowId)
  cause : ∀ i ∈ st.poisoned, ∃ e ∈ adds, e.unique ∧ e.building ∧ e.indexId = i ∧
    (firstClaim adds e.uniqueKey ≠ some e.rowId ∨ s.holderAfter adds e.uniqueKey ≠ some e.rowId)

section Loop

variable {s : IndexEntries} {adds : List StagedIndexEntry} {st : Staging}
  {deletedUnique : List (Nat × CanonicalKey)}

/-- Resolving the pending probes keeps the invariant and leaves none pending. -/
private theorem Staged.flush (h : Staged s adds st) (hdeleted : ∀ k ∈ deletedUnique, s.unique[k]? = none)
    {entries : IndexEntries} {poisoned : List Nat}
    (hok : st.entries.resolveProbes deletedUnique st.pending st.poisoned = .ok (entries, poisoned)) :
    Staged s adds { entries, pending := [], claimed := st.claimed, poisoned } := by
  have hpend : ∀ p ∈ st.pending, st.entries.unique[p.key]? = s.unique[p.key]? := by
    intro p hp
    rw [h.unique, if_pos (List.mem_map_of_mem hp)]
  have hres := resolveProbes_spec (fun p hp hdel => (hpend p hp).trans (hdeleted _ hdel)) h.nodup hok
  have hunique : ∀ k, entries.unique[k]? = s.holderAfter adds k := by
    intro k
    rw [hres.unique, h.unique, holderAfter]
    by_cases hk : k ∈ st.pending.map (·.key)
    · obtain ⟨p, hp, rfl⟩ := List.mem_map.mp hk
      have hsome : (st.pending.find? (·.key = p.key)).isSome := by
        rw [List.find?_isSome]
        exact ⟨p, hp, by simp⟩
      obtain ⟨q, hq⟩ := Option.isSome_iff_exists.mp hsome
      have hqk : q.key = p.key := by simpa using List.find?_some hq
      have hclaim := (h.pending q (List.mem_of_find?_eq_some hq)).2.1
      rw [if_pos hk, hq, ← hqk, hclaim]
      rfl
    · have hnone : st.pending.find? (·.key = k) = none := by
        rw [List.find?_eq_none]
        intro p hp hpk
        exact hk (by simpa using ⟨p, hp, by simpa using hpk⟩)
      rw [if_neg hk, hnone]
      simp
  refine ⟨h.claimed, by simp, by simp, by simpa using hunique, ?_, ?_, ?_⟩
  · intro k
    simp only [hres.multi]
    exact h.multi k
  · intro e he hu
    rcases h.settled e he hu with hp | ⟨hclaim, hk | hheld⟩
    · exact .inl (hres.grows hp)
    · obtain ⟨p, hp, hpk⟩ := List.mem_map.mp hk
      obtain ⟨hindex, hrow, -⟩ := h.pending p hp
      rcases hres.settled p hp with hput | ⟨-, hpoisoned⟩
      · refine .inr ⟨hclaim, .inr ?_⟩
        rw [hpk] at hput hrow
        rw [← hunique, hput, ← hrow, hclaim]
      · have hsame : p.indexId = e.indexId := hindex.trans (congrArg Prod.fst hpk)
        exact .inl (hsame ▸ hpoisoned)
    · exact .inr ⟨hclaim, .inr hheld⟩
  · intro i hi
    rcases hres.cause i hi with hi | ⟨p, hp, hbuilding, hindex, hne⟩
    · exact h.cause i hi
    · obtain ⟨hpi, hclaim, e, he, hu, hkey, hrow, hb⟩ := h.pending p hp
      refine ⟨e, he, hu, hb.trans hbuilding, ?_, .inr ?_⟩
      · rw [← hindex, hpi, ← hkey]
        rfl
      · rw [hkey, hrow, ← hunique]
        exact hne

/-- Staging another claim of the same value, or a non-unique entry, changes no holder. -/
private theorem holderAfter_append_of_claimed {e : StagedIndexEntry}
    (h : e.unique → firstClaim adds e.uniqueKey ≠ none) : s.holderAfter (adds ++ [e]) = s.holderAfter adds := by
  funext k
  rw [holderAfter, holderAfter, firstClaim_append_of_claimed h]

private theorem Staged.add_multi (h : Staged s adds st) {e : StagedIndexEntry} (he : e.unique = false) :
    Staged s (adds ++ [e]) { st with entries := { st.entries with multi := st.entries.multi.insert e.multiKey } } := by
  have hclaim : e.unique → firstClaim adds e.uniqueKey ≠ none := by simp [he]
  refine ⟨?_, h.nodup, ?_, ?_, ?_, ?_, ?_⟩
  · rw [firstClaim_append_of_claimed hclaim]
    exact h.claimed
  · intro p hp
    rw [firstClaim_append_of_claimed hclaim]
    obtain ⟨hi, hc, e', he', hrest⟩ := h.pending p hp
    exact ⟨hi, hc, e', List.mem_append_left _ he', hrest⟩
  · rw [holderAfter_append_of_claimed hclaim]
    exact h.unique
  · intro k
    rw [ExtTreeSet.mem_insert, h.multi, Std.LawfulEqCmp.compare_eq_iff_eq]
    simp only [List.mem_append, List.mem_singleton, or_and_right, exists_or, exists_eq_left, he,
      Bool.not_false, true_and]
    rw [or_left_comm]
    exact or_congr_right or_comm
  · intro e' he' hu
    rw [firstClaim_append_of_claimed hclaim, holderAfter_append_of_claimed hclaim]
    rcases List.mem_append.mp he' with he' | he'
    · exact h.settled e' he' hu
    · rw [List.mem_singleton.mp he', he] at hu
      cases hu
  · intro i hi
    rw [firstClaim_append_of_claimed hclaim, holderAfter_append_of_claimed hclaim]
    obtain ⟨e', he', hrest⟩ := h.cause i hi
    exact ⟨e', List.mem_append_left _ he', hrest⟩

/-- A claim of a value another entry has claimed. -/
private theorem Staged.add_claimed (h : Staged s adds st) {e : StagedIndexEntry} (hu : e.unique) {holder : Nat}
    (hholder : st.claimed[e.uniqueKey]? = some holder) {poisoned : List Nat} (hgrows : st.poisoned ⊆ poisoned)
    (hverdict : holder = e.rowId ∨ e.indexId ∈ poisoned)
    (hcause : ∀ i ∈ poisoned, i ∈ st.poisoned ∨ e.building ∧ e.indexId = i ∧ holder ≠ e.rowId) :
    Staged s (adds ++ [e]) { st with poisoned } := by
  have hclaimed : firstClaim adds e.uniqueKey = some holder := (h.claimed _).symm.trans hholder
  have hclaim : e.unique → firstClaim adds e.uniqueKey ≠ none := by simp [hclaimed]
  refine ⟨?_, h.nodup, ?_, ?_, ?_, ?_, ?_⟩
  · rw [firstClaim_append_of_claimed hclaim]
    exact h.claimed
  · intro p hp
    rw [firstClaim_append_of_claimed hclaim]
    obtain ⟨hi, hc, e', he', hrest⟩ := h.pending p hp
    exact ⟨hi, hc, e', List.mem_append_left _ he', hrest⟩
  · rw [holderAfter_append_of_claimed hclaim]
    exact h.unique
  · intro k
    rw [h.multi]
    simp [or_and_right, exists_or, hu]
  · intro e' he' hu'
    rw [firstClaim_append_of_claimed hclaim, holderAfter_append_of_claimed hclaim]
    rcases List.mem_append.mp he' with he' | he'
    · exact (h.settled e' he' hu').imp (fun hp => hgrows hp) id
    · cases List.mem_singleton.mp he'
      rcases hverdict with hrow | hpoisoned
      · -- The first claimant is the same row, so its verdict is this entry's.
        obtain ⟨e', he', hu', hkey, hrow'⟩ := mem_of_firstClaim hclaimed
        have hindex : e'.indexId = e.indexId := congrArg Prod.fst hkey
        have := h.settled e' he' hu'
        rw [hkey, hrow', hrow, hindex] at this
        exact this.imp (fun hp => hgrows hp) id
      · exact .inl hpoisoned
  · intro i hi
    rw [firstClaim_append_of_claimed hclaim, holderAfter_append_of_claimed hclaim]
    rcases hcause i hi with hi | ⟨hb, hindex, hne⟩
    · obtain ⟨e', he', hrest⟩ := h.cause i hi
      exact ⟨e', List.mem_append_left _ he', hrest⟩
    · refine ⟨e, by simp, hu, hb, hindex, .inl ?_⟩
      rw [hclaimed]
      exact fun heq => hne (Option.some.inj heq)

/-- A first claim waits for its probe. -/
private theorem Staged.add_pending (h : Staged s adds st) {e : StagedIndexEntry} (hu : e.unique)
    (hnone : st.claimed[e.uniqueKey]? = none) :
    Staged s (adds ++ [e])
      { st with
        claimed := st.claimed.insert e.uniqueKey e.rowId
        pending := st.pending ++ [⟨e.uniqueKey, e.rowId, e.indexId, e.building⟩] } := by
  have hfree : firstClaim adds e.uniqueKey = none := (h.claimed _).symm.trans hnone
  have hfirst : firstClaim (adds ++ [e]) e.uniqueKey = some e.rowId := by
    rw [firstClaim_append, hfree, if_pos ⟨hu, rfl⟩, Option.none_or]
  have hother : ∀ k, k ≠ e.uniqueKey → firstClaim (adds ++ [e]) k = firstClaim adds k := by
    intro k hk
    rw [firstClaim_append, if_neg fun he => hk he.2.symm, Option.or_none]
  have hpend : ∀ p ∈ st.pending, p.key ≠ e.uniqueKey := by
    intro p hp heq
    have := (h.pending p hp).2.1
    rw [heq, hfree] at this
    cases this
  have hkey : e.uniqueKey ∉ st.pending.map (·.key) := by
    rw [List.mem_map]
    rintro ⟨p, hp, heq⟩
    exact hpend p hp heq
  have hmem : ∀ e' ∈ adds, e'.unique → e'.uniqueKey ≠ e.uniqueKey := by
    intro e' he' hu' heq
    obtain ⟨r, hr⟩ := firstClaim_of_mem he' hu'
    rw [heq, hfree] at hr
    cases hr
  have hholder : ∀ k, k ≠ e.uniqueKey → s.holderAfter (adds ++ [e]) k = s.holderAfter adds k := by
    intro k hk
    rw [holderAfter, holderAfter, hother k hk]
  refine ⟨?_, ?_, ?_, ?_, ?_, ?_, ?_⟩
  · intro k
    simp only [getElem?_insert_ite]
    by_cases hk : k = e.uniqueKey
    · rw [if_pos hk, hk, hfirst]
    · rw [if_neg hk, hother k hk, h.claimed]
  · rw [List.map_append, List.nodup_append]
    refine ⟨h.nodup, by simp, fun k hk k' hk' heq => ?_⟩
    simp only [List.map_cons, List.map_nil, List.mem_singleton] at hk'
    exact hkey (hk' ▸ heq ▸ hk)
  · intro p hp
    rcases List.mem_append.mp hp with hp | hp
    · obtain ⟨hi, hc, e', he', hrest⟩ := h.pending p hp
      exact ⟨hi, (hother _ (hpend p hp)).trans hc, e', List.mem_append_left _ he', hrest⟩
    · cases List.mem_singleton.mp hp
      exact ⟨rfl, hfirst, e, by simp, hu, rfl, rfl, rfl⟩
  · intro k
    rw [h.unique]
    by_cases hk : k = e.uniqueKey
    · subst hk
      simp [hkey, holderAfter, hfree]
    · simp [hk, hholder k hk]
  · intro k
    rw [h.multi]
    simp [or_and_right, exists_or, hu]
  · intro e' he' hu'
    rcases List.mem_append.mp he' with he' | he'
    · have hk := hmem e' he' hu'
      rw [hother _ hk, hholder _ hk]
      refine (h.settled e' he' hu').imp id (And.imp id (Or.imp (fun hp => ?_) id))
      rw [List.map_append]
      exact List.mem_append_left _ hp
    · cases List.mem_singleton.mp he'
      exact .inr ⟨hfirst, .inl (by simp)⟩
  · intro i hi
    obtain ⟨e', he', hu', hb, hindex, hne⟩ := h.cause i hi
    have hk := hmem e' he' hu'
    refine ⟨e', List.mem_append_left _ he', hu', hb, hindex, ?_⟩
    rw [hother _ hk, hholder _ hk]
    exact hne

/-- Staging one put keeps the invariant. -/
private theorem Staged.add (h : Staged s adds st) (hdeleted : ∀ k ∈ deletedUnique, s.unique[k]? = none)
    {e : StagedIndexEntry} {st' : Staging} (hok : st.add deletedUnique e = .ok st') : Staged s (adds ++ [e]) st' := by
  unfold Staging.add at hok
  split at hok
  · next hmulti =>
    cases hok
    exact h.add_multi (by simpa using hmulti)
  · next hunique =>
    have hu : e.unique = true := by simpa using hunique
    split at hok
    · next holder hholder =>
      split at hok
      · next hne =>
        cases hb : e.building with
        | false => rw [collision, hb] at hok; cases hok
        | true =>
          rw [collision, hb] at hok
          cases hok
          refine h.add_claimed hu hholder (fun i hi => List.mem_append_left _ hi) (.inr (by simp)) fun i hi => ?_
          rcases List.mem_append.mp hi with hi | hi
          · exact .inl hi
          · exact .inr ⟨hb, (List.mem_singleton.mp hi).symm, hne⟩
      · next heq =>
        cases hok
        exact h.add_claimed hu hholder (fun _ => id) (.inl (not_not.mp heq)) fun i hi => .inl hi
    · next hnone =>
      have hpending := h.add_pending hu hnone
      dsimp only at hok
      split at hok
      · cases hres : st.entries.resolveProbes deletedUnique
            (st.pending ++ [⟨e.uniqueKey, e.rowId, e.indexId, e.building⟩]) st.poisoned with
        | error err => rw [hres] at hok; cases hok
        | ok result =>
          rw [hres] at hok
          cases hok
          exact hpending.flush hdeleted hres
      · cases hok
        exact hpending

private theorem Staged.addAll (hdeleted : ∀ k ∈ deletedUnique, s.unique[k]? = none) (rest : List StagedIndexEntry)
    {st' : Staging} (h : Staged s adds st) (hok : Staging.addAll deletedUnique rest st = .ok st') :
    Staged s (adds ++ rest) st' := by
  induction rest generalizing adds st with
  | nil =>
    cases hok
    rwa [List.append_nil]
  | cons e rest ih =>
    rw [Staging.addAll] at hok
    cases hadd : st.add deletedUnique e with
    | error err => rw [hadd] at hok; cases hok
    | ok st₁ =>
      rw [hadd] at hok
      have := ih (h.add hdeleted hadd) hok
      rwa [List.append_assoc] at this

/-- A claim of an index that is not building which another claim or a stored holder contradicts. -/
private def Refused (s : IndexEntries) (adds : List StagedIndexEntry) : Prop :=
  ∃ e ∈ adds, e.unique ∧ e.building = false ∧
    (firstClaim adds e.uniqueKey ≠ some e.rowId ∨ s.holderAfter adds e.uniqueKey ≠ some e.rowId)

private theorem Refused.append (h : Refused s adds) (rest : List StagedIndexEntry) : Refused s (adds ++ rest) := by
  obtain ⟨e, he, hu, hb, hne⟩ := h
  obtain ⟨r, hr⟩ := firstClaim_of_mem he hu
  refine ⟨e, List.mem_append_left _ he, hu, hb, ?_⟩
  have hfirst : firstClaim (adds ++ rest) e.uniqueKey = firstClaim adds e.uniqueKey := by
    rw [firstClaim_append_eq, hr, Option.some_or]
  rwa [holderAfter, hfirst, ← holderAfter]

/-- Resolving pending probes fails only at one that is held by another row. -/
private theorem Staged.refused_of_flush (h : Staged s adds st) {err : Error}
    (herr : st.entries.resolveProbes deletedUnique st.pending st.poisoned = .error err) : Refused s adds := by
  obtain ⟨x, hx, holder, hheld, hne, hb⟩ := resolveHeld_error herr
  obtain ⟨p, hp, rfl⟩ := List.mem_map.mp hx
  obtain ⟨-, -, e, he, hu, hkey, hrow, hbuilding⟩ := h.pending p hp
  refine ⟨e, he, hu, hbuilding.trans hb, .inr ?_⟩
  simp only at hheld hne
  split at hheld
  · cases hheld
  · rw [h.unique, if_pos (List.mem_map_of_mem hp)] at hheld
    rw [holderAfter, hkey, hheld, hrow, Option.some_or]
    exact fun heq => hne (Option.some.inj heq)

private theorem Staged.refused_of_add (h : Staged s adds st) {e : StagedIndexEntry} {err : Error}
    (herr : st.add deletedUnique e = .error err) : Refused s (adds ++ [e]) := by
  unfold Staging.add at herr
  split at herr
  · cases herr
  next hunique =>
    have hu : e.unique = true := by simpa using hunique
    split at herr
    next holder hholder =>
      have hclaimed : firstClaim adds e.uniqueKey = some holder := (h.claimed _).symm.trans hholder
      split at herr
      next hne =>
        cases hb : e.building with
        | true =>
          rw [collision, hb] at herr
          cases herr
        | false =>
          refine ⟨e, by simp, hu, hb, .inl ?_⟩
          rw [firstClaim_append_of_some hclaimed]
          exact fun heq => hne (Option.some.inj heq)
      · cases herr
    next hnone =>
      dsimp only at herr
      split at herr
      · cases hres : st.entries.resolveProbes deletedUnique
            (st.pending ++ [⟨e.uniqueKey, e.rowId, e.indexId, e.building⟩]) st.poisoned with
        | error err' => exact (h.add_pending hu hnone).refused_of_flush hres
        | ok result =>
          rw [hres] at herr
          cases herr
      · cases herr

private theorem Staged.refused_of_addAll (hdeleted : ∀ k ∈ deletedUnique, s.unique[k]? = none)
    (rest : List StagedIndexEntry) {err : Error} (h : Staged s adds st)
    (herr : Staging.addAll deletedUnique rest st = .error err) : Refused s (adds ++ rest) := by
  induction rest generalizing adds st with
  | nil => cases herr
  | cons e rest ih =>
    rw [Staging.addAll] at herr
    rw [← List.singleton_append, ← List.append_assoc]
    cases hadd : st.add deletedUnique e with
    | error err' => exact (h.refused_of_add hadd).append rest
    | ok st₁ =>
      rw [hadd] at herr
      exact ih (h.add hdeleted hadd) herr

end Loop

section Delete

variable (s : IndexEntries) (deletes : List StagedIndexEntry)

theorem foldl_delete_unique (k : Nat × CanonicalKey) :
    (deletes.foldl delete s).unique[k]? =
      if ∃ e ∈ deletes, e.unique ∧ e.uniqueKey = k then none else s.unique[k]? := by
  induction deletes generalizing s with
  | nil => simp
  | cons e deletes ih =>
    rw [List.foldl_cons, ih]
    by_cases hrest : ∃ e ∈ deletes, e.unique ∧ e.uniqueKey = k
    · simp [hrest]
    · rw [if_neg hrest]
      cases hu : e.unique with
      | false => simp [delete, hu, hrest]
      | true => simp [delete, hu, hrest, @eq_comm _ k]

theorem mem_foldl_delete_multi (k : Nat × CanonicalKey × Nat) :
    k ∈ (deletes.foldl delete s).multi ↔ k ∈ s.multi ∧ ¬ ∃ e ∈ deletes, !e.unique ∧ e.multiKey = k := by
  induction deletes generalizing s with
  | nil => simp
  | cons e deletes ih =>
    rw [List.foldl_cons, ih]
    cases hu : e.unique with
    | true => simp [delete, hu]
    | false =>
      simp only [delete, hu, Bool.false_eq_true, ↓reduceIte, ExtTreeSet.mem_erase,
        ne_eq, Std.LawfulEqCmp.compare_eq_iff_eq, List.mem_cons, exists_eq_or_imp, Bool.not_false, true_and, not_or]
      tauto

/-- The values the batch deletes are free. -/
private theorem deletedUnique_free : ∀ k ∈ (deletes.filter (·.unique)).map (·.uniqueKey),
    (deletes.foldl delete s).unique[k]? = none := by
  intro k hk
  obtain ⟨e, he, rfl⟩ := List.mem_map.mp hk
  rw [List.mem_filter] at he
  rw [foldl_delete_unique, if_pos ⟨e, he.1, he.2, rfl⟩]

end Delete

private theorem staged_start (s : IndexEntries) : Staged s [] { entries := s } :=
  ⟨by simp [firstClaim], by simp, by simp, by simp [holderAfter, firstClaim], by simp, by simp, by simp⟩

/-- What a batch of entries does to the stored ones when it is resolved without an error. -/
structure StagesTo (s : IndexEntries) (entries : List StagedIndexEntry) (s' : IndexEntries)
    (poisoned : List Nat) : Prop where
  /-- A value the batch deletes is free; a free value goes to its first claimant. -/
  unique : ∀ k, s'.unique[k]? =
    (if ∃ e ∈ entries, e.delete ∧ e.unique ∧ e.uniqueKey = k then none else s.unique[k]?).or
      (firstClaim (entries.filter (!·.delete)) k)
  multi : ∀ k, k ∈ s'.multi ↔ (∃ e ∈ entries, !e.delete ∧ !e.unique ∧ e.multiKey = k) ∨
    k ∈ s.multi ∧ ¬ ∃ e ∈ entries, e.delete ∧ !e.unique ∧ e.multiKey = k
  /-- Every unique put got its value, unless its index is poisoned. -/
  settled : ∀ e ∈ entries, !e.delete → e.unique →
    e.indexId ∈ poisoned ∨ s'.unique[e.uniqueKey]? = some e.rowId
  /-- Only a collision of a building index poisons it. -/
  cause : ∀ i ∈ poisoned, ∃ e ∈ entries, !e.delete ∧ e.unique ∧ e.building ∧ e.indexId = i ∧
    (firstClaim (entries.filter (!·.delete)) e.uniqueKey ≠ some e.rowId ∨ s'.unique[e.uniqueKey]? ≠ some e.rowId)

theorem stageIndexEntries_stagesTo {s s' : IndexEntries} {entries : List StagedIndexEntry} {poisoned : List Nat}
    (h : s.stageIndexEntries entries = .ok (s', poisoned)) : StagesTo s entries s' poisoned := by
  unfold stageIndexEntries at h
  split at h
  · cases h
  dsimp only at h
  let deletes := entries.filter (·.delete)
  let adds := entries.filter (!·.delete)
  let s₀ := deletes.foldl delete s
  let deletedUnique := (deletes.filter (·.unique)).map (·.uniqueKey)
  have hdeleted : ∀ k ∈ deletedUnique, s₀.unique[k]? = none := deletedUnique_free s deletes
  cases hadd : Staging.addAll deletedUnique adds { entries := s₀ } with
  | error e => rw [hadd] at h; cases h
  | ok st =>
    rw [hadd] at h
    replace h : (st.entries.resolveProbes deletedUnique st.pending st.poisoned).map _ = _ := h
    cases hres : st.entries.resolveProbes deletedUnique st.pending st.poisoned with
    | error e => rw [hres] at h; cases h
    | ok result =>
      obtain ⟨entries', poisoned'⟩ := result
      rw [hres] at h
      cases h
      have hst := ((staged_start s₀).addAll hdeleted adds hadd).flush hdeleted hres
      rw [List.nil_append] at hst
      have hunique : ∀ k, entries'.unique[k]? = s₀.holderAfter adds k := by simpa using hst.unique
      refine ⟨fun k => ?_, fun k => ?_, fun e he hadded hu => ?_, fun i hi => ?_⟩
      · rw [hunique, holderAfter, foldl_delete_unique]
        simp only [deletes, List.mem_filter, and_assoc]
        rfl
      · rw [hst.multi, mem_foldl_delete_multi]
        simp only [deletes, adds, List.mem_filter, and_assoc]
        exact or_comm
      · have hmem : e ∈ adds := List.mem_filter.mpr ⟨he, hadded⟩
        rcases hst.settled e hmem hu with hpoisoned | ⟨-, hpending | hholder⟩
        · exact .inl (ExtTreeSet.mem_toList.mpr (by simpa using hpoisoned))
        · cases hpending
        · exact .inr ((hunique _).trans hholder)
      · have hi' : i ∈ poisoned' := by simpa using ExtTreeSet.mem_toList.mp hi
        obtain ⟨e, he, hu, hb, hindex, hne⟩ := hst.cause i hi'
        obtain ⟨hmem, hadded⟩ := List.mem_filter.mp he
        refine ⟨e, hmem, hadded, hu, hb, hindex, ?_⟩
        rw [hunique]
        exact hne

/-- A refused batch is too long, or one of its unique puts for an index that is not building collides. -/
theorem refused_of_stageIndexEntries {s : IndexEntries} {entries : List StagedIndexEntry} {err : Error}
    (h : s.stageIndexEntries entries = .error err) : MAX_INDEX_ENTRIES_PER_COMMIT < entries.length ∨
      ∃ e ∈ entries, !e.delete ∧ e.unique ∧ e.building = false ∧
        (firstClaim (entries.filter (!·.delete)) e.uniqueKey ≠ some e.rowId ∨
          (if ∃ e' ∈ entries, e'.delete ∧ e'.unique ∧ e'.uniqueKey = e.uniqueKey then none
            else s.unique[e.uniqueKey]?).or (firstClaim (entries.filter (!·.delete)) e.uniqueKey) ≠ some e.rowId) := by
  unfold stageIndexEntries at h
  split at h
  next hlen => exact .inl hlen
  dsimp only at h
  let deletes := entries.filter (·.delete)
  let adds := entries.filter (!·.delete)
  let s₀ := deletes.foldl delete s
  have hrefused : Refused s₀ adds := by
    have hdeleted := deletedUnique_free s deletes
    cases hadd : Staging.addAll ((deletes.filter (·.unique)).map (·.uniqueKey)) adds { entries := s₀ } with
    | error e => exact (staged_start s₀).refused_of_addAll hdeleted adds hadd
    | ok st =>
      rw [hadd] at h
      replace h : (st.entries.resolveProbes _ st.pending st.poisoned).map _ = _ := h
      cases hres : st.entries.resolveProbes ((deletes.filter (·.unique)).map (·.uniqueKey)) st.pending st.poisoned with
      | error e => exact ((staged_start s₀).addAll hdeleted adds hadd).refused_of_flush hres
      | ok result =>
        rw [hres] at h
        cases h
  obtain ⟨e, he, hu, hb, hne⟩ := hrefused
  obtain ⟨hmem, hadded⟩ := List.mem_filter.mp he
  refine .inr ⟨e, hmem, hadded, hu, hb, ?_⟩
  rw [holderAfter, foldl_delete_unique] at hne
  simpa only [deletes, List.mem_filter, and_assoc] using hne

/-- The row that holds a unique value after a batch of entries: the stored holder, unless the batch deletes the
    value, or else its first claimant. -/
def heldAfter (s : IndexEntries) (entries : List StagedIndexEntry) (k : Nat × CanonicalKey) : Option Nat :=
  (if ∃ e ∈ entries, e.delete ∧ e.unique ∧ e.uniqueKey = k then none else s.unique[k]?).or
    (firstClaim (entries.filter (!·.delete)) k)

/-- A unique entry that the batch puts for the index claims a value that another row holds. -/
def Collides (s : IndexEntries) (entries : List StagedIndexEntry) (i : Nat) : Prop :=
  ∃ e ∈ entries, !e.delete ∧ e.unique ∧ e.indexId = i ∧ s.heldAfter entries e.uniqueKey ≠ some e.rowId

/-- A claim that another claim or the holder contradicts means a collision in its index. -/
theorem collides_of_claimed {s : IndexEntries} {entries : List StagedIndexEntry} {e : StagedIndexEntry}
    (he : e ∈ entries) (hput : !e.delete) (hunique : e.unique)
    (hne : firstClaim (entries.filter (!·.delete)) e.uniqueKey ≠ some e.rowId ∨
      s.heldAfter entries e.uniqueKey ≠ some e.rowId) : s.Collides entries e.indexId := by
  by_cases hrow : s.heldAfter entries e.uniqueKey = some e.rowId
  · -- The holder is not the first claimant, so that one collides.
    have hadd : e ∈ entries.filter (!·.delete) := List.mem_filter.mpr ⟨he, hput⟩
    obtain ⟨row, hfirst⟩ := firstClaim_of_mem hadd hunique
    obtain ⟨e', he', hunique', hkey, hrow'⟩ := mem_of_firstClaim hfirst
    obtain ⟨hmem', hput'⟩ := List.mem_filter.mp he'
    refine ⟨e', hmem', hput', hunique', congrArg Prod.fst hkey, ?_⟩
    rw [hkey, hrow, hrow']
    intro heq
    rw [hfirst, ← heq] at hne
    exact hne.elim (fun h => h rfl) fun h => h hrow
  · exact ⟨e, he, hput, hunique, rfl, hrow⟩

/-- The poisoned indexes are listed as a set is. -/
theorem poisoned_eq_toList {s s' : IndexEntries} {entries : List StagedIndexEntry} {poisoned : List Nat}
    (h : s.stageIndexEntries entries = .ok (s', poisoned)) : ∃ set : ExtTreeSet Nat, poisoned = set.toList := by
  unfold stageIndexEntries at h
  split at h
  · cases h
  dsimp only at h
  split at h
  · cases h
  next st hst =>
    cases hres : st.entries.resolveProbes (((entries.filter (·.delete)).filter (·.unique)).map (·.uniqueKey)) st.pending
        st.poisoned with
    | error e =>
      rw [hres] at h
      cases h
    | ok result =>
      rw [hres] at h
      cases h
      exact ⟨_, rfl⟩

/-- The poisoned indexes are those in which the batch's entries collide. -/
theorem mem_poisoned_iff {s s' : IndexEntries} {entries : List StagedIndexEntry} {poisoned : List Nat}
    (h : s.stageIndexEntries entries = .ok (s', poisoned)) (i : Nat) : i ∈ poisoned ↔ s.Collides entries i := by
  have hstages := stageIndexEntries_stagesTo h
  have hheld : ∀ k, s'.unique[k]? = s.heldAfter entries k := hstages.unique
  constructor
  · intro hi
    obtain ⟨e, he, hput, hunique, -, hindex, hne⟩ := hstages.cause i hi
    rw [hheld] at hne
    exact hindex ▸ collides_of_claimed he hput hunique hne
  · rintro ⟨e, he, hput, hunique, rfl, hne⟩
    rcases hstages.settled e he hput hunique with hpoisoned | hholds
    · exact hpoisoned
    · exact absurd ((hheld _).symm.trans hholds) hne

end IndexEntries

end Moraine
