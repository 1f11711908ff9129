-- SUMMARY: Logs of begins and ends of one item, read back from its begins and its last end only.
import Mathlib

/-!
# Version logs

A log lists, in time order, when an item began with a value and when it ended. A version is live from its
begin until the next end. A store that keeps every begun version but only the last end reads a version as
live from its begin until that end, or without end if the end is not later than the begin. `shown_eq_iff`
says for which logs the two readings agree at all times.
-/

namespace VersionLog

variable {V : Type*}

/-- The events of one item: `some v` begins a version with value `v`, `none` ends what is live. -/
abbrev Log (V : Type*) := List (Nat × Option V)

/-- The versions that were begun. -/
def begun (log : Log V) : List (Nat × V) := log.filterMap fun e => e.2.map (e.1, ·)

/-- The ends, in order. -/
def ends (log : Log V) : List Nat := log.filterMap fun e => if e.2.isNone then some e.1 else none

/-- What is live after all events: a begin adds a version, an end leaves none. -/
def live (log : Log V) : List (Nat × V) :=
  log.foldl (fun versions e => e.2.elim [] fun v => versions ++ [(e.1, v)]) []

/-- What is live at time `s`. -/
def liveAt (log : Log V) (s : Nat) : List (Nat × V) := live (log.filter (·.1 ≤ s))

/-- A version reads as live at `s`, given the last end. -/
def Shows (lastEnd : Option Nat) (s : Nat) (version : Nat × V) : Prop :=
  version.1 ≤ s ∧ ∀ e ∈ lastEnd, e ≤ version.1 ∨ s < e

instance (lastEnd : Option Nat) (s : Nat) (version : Nat × V) : Decidable (Shows lastEnd s version) :=
  inferInstanceAs (Decidable (_ ∧ _))

/-- The versions read as live at `s` from the begun versions and the last end. -/
def shown (log : Log V) (s : Nat) : List (Nat × V) := (begun log).filter (Shows (ends log).getLast? s ·)

/-- The first end after each version is at time `last`, later than the version's begin. -/
def EndsAt (last : Option Nat) : Log V → Prop
  | [] => True
  | (b, some _) :: log => (∀ e ∈ (ends log).head?, last = some e ∧ b < e) ∧ EndsAt last log
  | (_, none) :: log => EndsAt last log

/-- The first end after each version is at the time of the last end of all, later than the begin. -/
def EndsLast (log : Log V) : Prop := EndsAt (ends log).getLast? log

/-- A version begins only if none is live. -/
def Single (log : Log V) : Prop := log.IsChain fun d e => d.2.isSome → e.2.isNone

/-! ## Begins and ends of a log -/

@[simp] theorem begun_cons_some (t : Nat) (v : V) (log : Log V) :
    begun ((t, some v) :: log) = (t, v) :: begun log := rfl

@[simp] theorem begun_cons_none (t : Nat) (log : Log V) : begun ((t, none) :: log) = begun log := rfl

@[simp] theorem ends_cons_some (t : Nat) (v : V) (log : Log V) : ends ((t, some v) :: log) = ends log := rfl

@[simp] theorem ends_cons_none (t : Nat) (log : Log V) : ends ((t, none) :: log) = t :: ends log := rfl

theorem ends_filter (log : Log V) (s : Nat) : ends (log.filter (·.1 ≤ s)) = (ends log).filter (· ≤ s) := by
  induction log with
  | nil => rfl
  | cons e log ih =>
    rcases e with ⟨t, _ | v⟩ <;> by_cases ht : t ≤ s <;> simp [ht, ih]

/-- An end of the log is one of its events. -/
theorem mem_of_mem_ends {log : Log V} {e : Nat} (he : e ∈ ends log) : (e, none) ∈ log := by
  obtain ⟨⟨t, v⟩, hmem, hevent⟩ := List.mem_filterMap.mp he
  simp only [Option.ite_none_right_eq_some, Option.isNone_iff_eq_none, Option.some.injEq] at hevent
  obtain ⟨rfl, rfl⟩ := hevent
  exact hmem

/-! ## What is live -/

private theorem live_from (log : Log V) (versions : List (Nat × V)) :
    log.foldl (fun versions e => e.2.elim [] fun v => versions ++ [(e.1, v)]) versions =
      (if ends log = [] then versions else []) ++ live log := by
  induction log generalizing versions with
  | nil => simp [live, ends]
  | cons e log ih =>
    rw [live, List.foldl_cons, List.foldl_cons, ih, ih (e.2.elim [] _)]
    rcases e with ⟨t, _ | v⟩
    · simp
    · by_cases hends : ends log = [] <;> simp [hends]

/-- The first version is live at `s` if no end has come by then. -/
theorem liveAt_cons_some (t : Nat) (v : V) (log : Log V) (s : Nat) :
    liveAt ((t, some v) :: log) s =
      (if t ≤ s ∧ ∀ e ∈ ends log, s < e then [(t, v)] else []) ++ liveAt log s := by
  by_cases ht : t ≤ s
  · have hnone : (ends (log.filter (·.1 ≤ s)) = []) ↔ ∀ e ∈ ends log, s < e := by
      simp [ends_filter]
    rw [liveAt, List.filter_cons_of_pos (by simpa using ht), live, List.foldl_cons, live_from]
    simp only [hnone, ht, true_and]
    rfl
  · simp [liveAt, ht]

theorem liveAt_cons_none (t : Nat) (log : Log V) (s : Nat) : liveAt ((t, none) :: log) s = liveAt log s := by
  by_cases ht : t ≤ s <;> simp [liveAt, live, ht]

/-- If versions begin only when none is live, at most one is live at any time. -/
theorem Single.length_liveAt_le {log : Log V} (h : Single log) (hordered : log.Pairwise fun d e => d.1 ≤ e.1)
    (s : Nat) : (liveAt log s).length ≤ 1 := by
  induction log with
  | nil => simp [liveAt, live]
  | cons e log ih =>
    obtain ⟨hhead, hrest⟩ := List.pairwise_cons.mp hordered
    have hlog := ih h.tail hrest
    rcases e with ⟨t, _ | v⟩
    · rwa [liveAt_cons_none]
    rw [liveAt_cons_some]
    split
    case isFalse => simpa using hlog
    case isTrue hlive =>
      -- Nothing is begun by `s` after a live version: an end would have to come first.
      rcases log with _ | ⟨⟨t', _ | v'⟩, log⟩
      · simp [liveAt, live]
      · have hlate : s < t' := hlive.2 t' (by simp)
        have hnone : ((t', none) :: log).filter (·.1 ≤ s) = [] := by
          refine List.filter_eq_nil_iff.mpr fun e he => ?_
          rcases List.mem_cons.mp he with rfl | he
          · simpa using hlate
          · simpa using hlate.trans_le ((List.pairwise_cons.mp hrest).1 e he)
        simp [liveAt, hnone, live]
      · simpa using (List.isChain_cons_cons.mp h).1

/-! ## When the last end is enough -/

theorem ends_sorted {log : Log V} (h : log.Pairwise fun d e => d.1 ≤ e.1) : (ends log).Pairwise (· ≤ ·) := by
  refine List.Pairwise.filterMap _ (fun d d' hle t ht t' ht' => ?_) h
  simp only [Option.ite_none_right_eq_some, Option.some.injEq] at ht ht'
  rwa [← ht.2, ← ht'.2]

/-- `last` is the last end of a log whose last part is `log`. -/
private structure Last (log : Log V) (last : Option Nat) : Prop where
  ordered : log.Pairwise fun d e => d.1 ≤ e.1
  /-- Without an end in this part, the last end came before it. -/
  past : ends log = [] → ∀ e ∈ last, ∀ d ∈ log, e ≤ d.1
  ends : ends log ≠ [] → (ends log).getLast? = last

private theorem Last.tail {e : Nat × Option V} {log : Log V} {last : Option Nat} (h : Last (e :: log) last) :
    Last log last := by
  obtain ⟨hhead, hrest⟩ := List.pairwise_cons.mp h.ordered
  refine ⟨hrest, fun hnil t ht d hd => ?_, fun hne => ?_⟩
  · rcases e with ⟨t', _ | v⟩
    · have hlast := h.ends (by simp)
      rw [ends_cons_none, hnil, List.getLast?_singleton] at hlast
      obtain rfl : t' = t := by simpa [← hlast] using ht
      exact hhead d hd
    · exact h.past hnil t ht d (List.mem_cons_of_mem _ hd)
  · rcases e with ⟨t', _ | v⟩
    · rw [← h.ends (by simp), ends_cons_none, List.getLast?_cons_of_ne_nil hne]
    · exact h.ends hne

/-- The last end is not before any other. -/
private theorem Last.le_of_mem {log : Log V} {last : Option Nat} (h : Last log last) {e : Nat}
    (he : e ∈ VersionLog.ends log) : ∃ t, last = some t ∧ e ≤ t := by
  have hne := List.ne_nil_of_mem he
  exact ⟨_, (h.ends hne).symm.trans (List.getLast?_eq_some_getLast hne), (ends_sorted h.ordered).rel_getLast he⟩

variable {b : Nat} {v : V} {log : Log V} {last : Option Nat}

/-- A live version reads as live. -/
private theorem Last.shows_of_live (h : Last ((b, some v) :: log) last) {s : Nat} (hb : b ≤ s)
    (hlive : ∀ e ∈ VersionLog.ends log, s < e) : Shows last s (b, v) := by
  refine ⟨hb, fun e he => ?_⟩
  cases hends : VersionLog.ends log with
  | nil => exact .inl (h.past hends e he _ List.mem_cons_self)
  | cons first rest =>
    obtain ⟨t, rfl, hle⟩ := h.tail.le_of_mem (hends ▸ List.mem_cons_self)
    cases he
    exact .inr ((hlive first (hends ▸ List.mem_cons_self)).trans_le hle)

/-- At all times up to `head` the first version reads as live only if it is, exactly if the first end after
    it is the last of all and later than its begin. -/
private theorem Last.shows_iff (h : Last ((b, some v) :: log) last) {head : Nat}
    (hhead : ∀ e ∈ log, e.1 ≤ head) :
    (∀ s ≤ head, Shows last s (b, v) → b ≤ s ∧ ∀ e ∈ VersionLog.ends log, s < e) ↔
      ∀ e ∈ (VersionLog.ends log).head?, last = some e ∧ b < e := by
  constructor
  · intro hshows e he
    have hmem : e ∈ VersionLog.ends log := List.mem_of_mem_head? he
    have hbe : b ≤ e := (List.pairwise_cons.mp h.ordered).1 _ (mem_of_mem_ends hmem)
    obtain ⟨t, rfl, hle⟩ := h.tail.le_of_mem hmem
    -- At the first end the version must not be shown, so no end is later and the begin is before it.
    have hnot : ¬ Shows (some t) e (b, v) :=
      fun hs => lt_irrefl e ((hshows e (hhead _ (mem_of_mem_ends hmem)) hs).2 e hmem)
    simp only [Shows, hbe, true_and, Option.mem_some_iff, forall_eq', not_or, not_le, not_lt] at hnot
    obtain rfl := le_antisymm hnot.2 hle
    exact ⟨rfl, hnot.1⟩
  · intro hend s _ hshows
    refine ⟨hshows.1, fun e he => ?_⟩
    have hsorted := ends_sorted h.tail.ordered
    cases hends : VersionLog.ends log with
    | nil => simp [hends] at he
    | cons first rest =>
      rw [hends] at he hsorted
      obtain ⟨rfl, hlt⟩ := hend first (by simp [hends])
      have hs : s < first := (hshows.2 first rfl).resolve_left (by simpa using hlt)
      rcases List.mem_cons.mp he with rfl | he
      · exact hs
      · exact hs.trans_le ((List.pairwise_cons.mp hsorted).1 e he)

/-- Longer lists give the same whole only as the same parts. -/
private theorem append_eq_append_iff_of_sublist {α : Type*} {a a' c c' : List α} (ha : a'.Sublist a)
    (hc : c'.Sublist c) : a ++ c = a' ++ c' ↔ a = a' ∧ c = c' := by
  refine ⟨fun h => ?_, fun h => by rw [h.1, h.2]⟩
  have hlen := congrArg List.length h
  simp only [List.length_append] at hlen
  have := ha.length_le
  have := hc.length_le
  exact ⟨(ha.eq_of_length_le (by omega)).symm, (hc.eq_of_length_le (by omega)).symm⟩

private theorem shown_cons (b : Nat) (v : V) (log : Log V) (s : Nat) :
    (begun ((b, some v) :: log)).filter (Shows last s ·) =
      (if Shows last s (b, v) then [(b, v)] else []) ++ (begun log).filter (Shows last s ·) := by
  by_cases h : Shows last s (b, v) <;> simp [h]

/-- What is live reads as live. -/
private theorem Last.sublist (h : Last log last) (s : Nat) :
    (liveAt log s).Sublist ((begun log).filter (Shows last s ·)) := by
  induction log with
  | nil => exact .slnil
  | cons e log ih =>
    rcases e with ⟨t, _ | v⟩
    · rw [liveAt_cons_none]
      exact ih h.tail
    · rw [liveAt_cons_some, shown_cons]
      refine List.Sublist.append ?_ (ih h.tail)
      split
      case isTrue hlive => rw [if_pos (h.shows_of_live hlive.1 hlive.2)]
      case isFalse => exact List.nil_sublist _

private theorem Last.shown_eq_iff (h : Last log last) {head : Nat} (hhead : ∀ e ∈ log, e.1 ≤ head) :
    (∀ s ≤ head, (begun log).filter (Shows last s ·) = liveAt log s) ↔ EndsAt last log := by
  induction log with
  | nil => exact ⟨fun _ => trivial, fun _ _ _ => rfl⟩
  | cons e log ih =>
    have hrest := ih h.tail fun e he => hhead e (List.mem_cons_of_mem _ he)
    rcases e with ⟨t, _ | v⟩
    · simpa only [begun_cons_none, liveAt_cons_none, EndsAt] using hrest
    rw [EndsAt, ← hrest, ← h.shows_iff fun e he => hhead e (List.mem_cons_of_mem _ he), ← forall₂_and]
    refine forall₂_congr fun s _ => ?_
    have hfirst : (if t ≤ s ∧ ∀ e ∈ VersionLog.ends log, s < e then [(t, v)] else []).Sublist
        (if Shows last s (t, v) then [(t, v)] else []) := by
      split
      case isTrue hlive => rw [if_pos (h.shows_of_live hlive.1 hlive.2)]
      case isFalse => exact List.nil_sublist _
    rw [liveAt_cons_some, shown_cons, append_eq_append_iff_of_sublist hfirst (h.tail.sublist s)]
    refine and_congr_left fun _ => ?_
    by_cases hshows : Shows last s (t, v)
    · simp [hshows]
    · have hlive : ¬ (t ≤ s ∧ ∀ e ∈ VersionLog.ends log, s < e) :=
        fun hlive => hshows (h.shows_of_live hlive.1 hlive.2)
      simp [hshows, hlive]

/-- Reading from the begun versions and the last end is right at all times up to `head` exactly if each
    version's first end is at the time of the last one. -/
theorem shown_eq_iff (hordered : log.Pairwise fun d e => d.1 ≤ e.1) {head : Nat}
    (hhead : ∀ e ∈ log, e.1 ≤ head) : (∀ s ≤ head, shown log s = liveAt log s) ↔ EndsLast log :=
  Last.shown_eq_iff ⟨hordered, fun hnil e he => by simp [hnil] at he, fun _ => rfl⟩ hhead

/-- What is live reads as live, whatever the ends. -/
theorem liveAt_sublist_shown (hordered : log.Pairwise fun d e => d.1 ≤ e.1) (s : Nat) :
    (liveAt log s).Sublist (shown log s) :=
  Last.sublist ⟨hordered, fun hnil e he => by simp [hnil] at he, fun _ => rfl⟩ s

end VersionLog
