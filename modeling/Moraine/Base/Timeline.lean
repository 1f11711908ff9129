-- SUMMARY: The versions of one item with the intervals they are live in, and what archiving the open version does.
import Mathlib

/-!
# Timelines

A timeline keeps the versions of one item: the current one, and under each time the one that was archived then.
A version is live from its begin up to its end. A commit at a new time archives the current version, ended at that
time, and puts another in its place. If that one begins at the same time, what was live at any earlier time stays
as it was and no two versions overlap.
-/

namespace Timeline

/-- A version of an item: when it begins, when it ends if it does, and its value. -/
structure Version (V : Type*) where
  start : Nat
  stop : Option Nat
  value : V

/-- The versions of one item: the current one under `none`, and under each time the one archived then. -/
abbrev Versions (V : Type*) := Option Nat → Option (Version V)

variable {V : Type*}

/-- The version is live at a time. -/
def Version.Covers (v : Version V) (s : Nat) : Prop := v.start ≤ s ∧ ∀ e ∈ v.stop, s < e

/-- Some version with value `x` is live at time `s`. -/
def Live (T : Versions V) (s : Nat) (x : V) : Prop := ∃ i v, T i = some v ∧ v.Covers s ∧ v.value = x

/-- No two versions are live at one time, and at most one is open. -/
structure Apart (T : Versions V) : Prop where
  disjoint : ∀ i j v w, i ≠ j → T i = some v → T j = some w → ∀ s, ¬ (v.Covers s ∧ w.Covers s)
  oneOpen : ∀ i j v w, i ≠ j → T i = some v → T j = some w → ¬ (v.stop = none ∧ w.stop = none)

/-- The timeline up to time `n`: the current version is open and began by then, the others ended by then, each at
    the time it is kept under. -/
structure Upto (T : Versions V) (n : Nat) : Prop where
  current : ∀ v, T none = some v → v.start ≤ n ∧ v.stop = none
  archived : ∀ e v, T (some e) = some v → e ≤ n ∧ v.stop = some e

/-- Archives the current version at `n` and puts another in its place. -/
def archive (T : Versions V) (n : Nat) (next : Option (Version V)) : Versions V
  | none => next
  | some e => if e = n then (T none).map fun v => { v with stop := some n } else T (some e)

section Archive

variable {T : Versions V} {n m s : Nat} {next : Option (Version V)} {x : V}

theorem Apart.eq_of_covers (h : Apart T) {i j : Option Nat} {v w : Version V} (hi : T i = some v) (hj : T j = some w)
    (hv : v.Covers s) (hw : w.Covers s) : v = w := by
  by_cases hij : i = j
  · subst hij
    exact Option.some.inj (hi.symm.trans hj)
  · exact absurd ⟨hv, hw⟩ (h.disjoint i j v w hij hi hj s)

theorem upto_archive (h : Upto T m) (hm : m < n) (hnext : ∀ v, next = some v → v.start ≤ n ∧ v.stop = none) :
    Upto (archive T n next) n where
  current := hnext
  archived e v hv := by
    rw [archive] at hv
    split at hv
    · next he =>
      obtain ⟨prior, -, rfl⟩ := Option.map_eq_some_iff.mp hv
      exact ⟨he.le, congrArg some he.symm⟩
    · obtain ⟨hle, hstop⟩ := h.archived e v hv
      exact ⟨by omega, hstop⟩

/-- What is live at a time before the commit stays so. -/
theorem live_archive_of_lt (h : Upto T m) (hm : m < n) (hnext : ∀ v, next = some v → v.start = n) (hs : s < n) :
    Live (archive T n next) s x ↔ Live T s x := by
  constructor
  · rintro ⟨i, v, hv, hcovers, rfl⟩
    cases i with
    | none =>
      have := hcovers.1
      have := hnext v hv
      omega
    | some e =>
      rw [archive] at hv
      split at hv
      · obtain ⟨prior, hprior, rfl⟩ := Option.map_eq_some_iff.mp hv
        refine ⟨none, prior, hprior, ⟨hcovers.1, ?_⟩, rfl⟩
        simp [(h.current prior hprior).2]
      · exact ⟨some e, v, hv, hcovers, rfl⟩
  · rintro ⟨i, v, hv, hcovers, rfl⟩
    cases i with
    | none =>
      refine ⟨some n, { v with stop := some n }, ?_, ⟨hcovers.1, by simpa using hs⟩, rfl⟩
      rw [archive, if_pos rfl, hv]
      rfl
    | some e =>
      have hle := (h.archived e v hv).1
      refine ⟨some e, v, ?_, hcovers, rfl⟩
      rw [archive, if_neg (by omega)]
      exact hv

/-- From the commit on only the new version is live. -/
theorem live_of_le (h : Upto T n) (hs : n ≤ s) : Live T s x ↔ ∃ v, T none = some v ∧ v.value = x := by
  constructor
  · rintro ⟨i, v, hv, hcovers, rfl⟩
    cases i with
    | none => exact ⟨v, hv, rfl⟩
    | some e =>
      obtain ⟨hle, hstop⟩ := h.archived e v hv
      have := hcovers.2 e (by simp [hstop])
      omega
  · rintro ⟨v, hv, rfl⟩
    obtain ⟨hstart, hstop⟩ := h.current v hv
    exact ⟨none, v, hv, ⟨hstart.trans hs, by simp [hstop]⟩, rfl⟩

/-- At most one version of a timeline is open. -/
theorem Upto.oneOpen (h : Upto T n) {i j : Option Nat} {v w : Version V} (hij : i ≠ j) (hi : T i = some v)
    (hj : T j = some w) : ¬ (v.stop = none ∧ w.stop = none) := by
  rintro ⟨hv, hw⟩
  cases i with
  | none =>
    cases j with
    | none => exact hij rfl
    | some e => cases hw.symm.trans (h.archived e w hj).2
  | some e => cases hv.symm.trans (h.archived e v hi).2

private theorem not_covers_archived (h : Upto T m) (hm : m < n) {e : Nat} {v : Version V}
    (hv : archive T n next (some e) = some v) (hs : n ≤ s) : ¬ v.Covers s := by
  intro hcovers
  rw [archive] at hv
  split at hv
  · obtain ⟨prior, -, rfl⟩ := Option.map_eq_some_iff.mp hv
    have := hcovers.2 n rfl
    omega
  · obtain ⟨hle, hstop⟩ := h.archived e v hv
    have := hcovers.2 e (by simp [hstop])
    omega

/-- A version that begins at the commit overlaps no other. -/
theorem apart_archive (hT : Apart T) (h : Upto T m) (hm : m < n)
    (hnext : ∀ v, next = some v → v.start = n ∧ v.stop = none) : Apart (archive T n next) where
  disjoint i j v w hij hi hj s hcovers := by
    -- The slots an archived version of the commit and an older one had before.
    have hbefore : ∀ e v, archive T n next (some e) = some v →
        ∃ i v', T i = some v' ∧ (v.Covers s → v'.Covers s) ∧ (i = none ↔ e = n) ∧ (i ≠ none → i = some e) := by
      intro e v hv
      rw [archive] at hv
      split at hv
      · next he =>
        obtain ⟨prior, hprior, rfl⟩ := Option.map_eq_some_iff.mp hv
        exact ⟨none, prior, hprior, fun hc => ⟨hc.1, by simp [(h.current prior hprior).2]⟩, by simp [he], by simp⟩
      · next he => exact ⟨some e, v, hv, id, by simp [he], fun _ => rfl⟩
    cases i with
    | none =>
      cases j with
      | none => exact hij rfl
      | some e =>
        have hstart := (hnext v hi).1
        exact not_covers_archived h hm hj (hstart ▸ hcovers.1.1) hcovers.2
    | some e =>
      cases j with
      | none =>
        have hstart := (hnext w hj).1
        exact not_covers_archived h hm hi (hstart ▸ hcovers.2.1) hcovers.1
      | some e' =>
        obtain ⟨i', v', hi', hv', hnone, hsome⟩ := hbefore e v hi
        obtain ⟨j', w', hj', hw', hnone', hsome'⟩ := hbefore e' w hj
        refine hT.disjoint i' j' v' w' (fun heq => hij ?_) hi' hj' s ⟨hv' hcovers.1, hw' hcovers.2⟩
        subst heq
        cases i' with
        | none => rw [hnone.mp rfl, hnone'.mp rfl]
        | some a => rw [← hsome (by simp), ← hsome' (by simp)]
  oneOpen i j v w hij hi hj :=
    (upto_archive h hm fun v hv => ⟨(hnext v hv).1.le, (hnext v hv).2⟩).oneOpen hij hi hj

/-- A version that takes the place of one of before the commit, and begins before it too, overlaps it. -/
theorem not_apart_archive {v w : Version V} (hv : T none = some v) (hvstart : v.start < n) (hw : w.start < n)
    (hwstop : w.stop = none) : ¬ Apart (archive T n (some w)) := by
  intro hT
  have hprior : archive T n (some w) (some n) = some { v with stop := some n } := by
    rw [archive, if_pos rfl, hv]
    rfl
  refine hT.disjoint (some n) none _ w (by simp) hprior rfl (max v.start w.start) ⟨⟨le_max_left _ _, ?_⟩,
    le_max_right _ _, by simp [hwstop]⟩
  simpa using ⟨hvstart, hw⟩

/-- An item with no archived versions has none that overlap. -/
theorem apart_of_current (hT : ∀ e, T (some e) = none) : Apart T := by
  have hone : ∀ i j v w, i ≠ j → T i = some v → T j = some w → False := by
    intro i j v w hij hi hj
    cases i with
    | none =>
      cases j with
      | none => exact hij rfl
      | some e => cases (hT e).symm.trans hj
    | some e => cases (hT e).symm.trans hi
  exact ⟨fun i j v w hij hi hj _ _ => hone i j v w hij hi hj, fun i j v w hij hi hj _ => hone i j v w hij hi hj⟩

/-- The first version of an item overlaps none. -/
theorem apart_archive_of_empty (hT : ∀ i, T i = none) : Apart (archive T n next) := by
  refine apart_of_current fun e => ?_
  rw [archive, hT none, hT (some e)]
  simp

end Archive

end Timeline
