-- SUMMARY: What a list of writes leaves in one cell: the effect of the last one that sets it.
import Mathlib

/-!
# The last effect on a cell

A cell is a part of a state that a write either sets or leaves. What is in the cell after a list of writes is
what the last one to set it put there.
-/

namespace LastEffect

/-- A part of a state: how to read it, and what a write sets it to. -/
structure Cell {S W : Type*} (apply : S → W → S) (β : Type*) where
  read : S → β
  written : W → Option β
  read_apply : ∀ s w, read (apply s w) = (written w).getD (read s)

namespace Cell

variable {S W β : Type*} {apply : S → W → S} (c : Cell apply β)

/-- What the last of the writes to the cell sets it to. -/
def writtenBy : List W → Option β
  | [] => none
  | w :: ws => (writtenBy ws).or (c.written w)

theorem read_foldl (s : S) (ws : List W) : c.read (ws.foldl apply s) = (c.writtenBy ws).getD (c.read s) := by
  induction ws generalizing s with
  | nil => rfl
  | cons w ws ih =>
    rw [List.foldl_cons, ih, c.read_apply, writtenBy]
    cases c.writtenBy ws <;> rfl

/-- The cell is set to what one of the writes sets it to. -/
theorem writtenBy_eq_some {ws : List W} {value : β} (h : c.writtenBy ws = some value) :
    ∃ w ∈ ws, c.written w = some value := by
  induction ws with
  | nil => cases h
  | cons w ws ih =>
    rw [writtenBy, Option.or_eq_some_iff] at h
    rcases h with h | ⟨-, h⟩
    · obtain ⟨w', hmem, hw'⟩ := ih h
      exact ⟨w', List.mem_cons_of_mem _ hmem, hw'⟩
    · exact ⟨w, List.mem_cons_self, h⟩

theorem writtenBy_eq_none_iff {ws : List W} : c.writtenBy ws = none ↔ ∀ w ∈ ws, c.written w = none := by
  induction ws with
  | nil => simp [writtenBy]
  | cons w ws ih => simp [writtenBy, ih, and_comm]

/-- Writes that all set the cell to `value`, if they set it, set it if one of them does. -/
theorem writtenBy_of_forall {ws : List W} {value : β} (hvalue : ∀ w ∈ ws, ∀ v, c.written w = some v → v = value)
    {p : Prop} [Decidable p] (hp : (∃ w ∈ ws, c.written w ≠ none) ↔ p) :
    c.writtenBy ws = if p then some value else none := by
  cases h : c.writtenBy ws with
  | none =>
    rw [if_neg]
    intro hset
    obtain ⟨w, hmem, hw⟩ := hp.mpr hset
    exact hw (c.writtenBy_eq_none_iff.mp h w hmem)
  | some v =>
    obtain ⟨w, hmem, hw⟩ := c.writtenBy_eq_some h
    rw [if_pos (hp.mp ⟨w, hmem, by rw [hw]; exact Option.some_ne_none _⟩), hvalue w hmem v hw]

/-- Writes that set the cell to one value only leave that value, if one of them sets it. -/
theorem read_foldl_of_unique {ws : List W} {value : β} {p : Prop} [Decidable p]
    (h : ∀ v, (∃ w ∈ ws, c.written w = some v) ↔ p ∧ v = value) (s : S) :
    c.read (ws.foldl apply s) = if p then value else c.read s := by
  have hvalue : ∀ w ∈ ws, ∀ v, c.written w = some v → v = value :=
    fun w hw v hv => ((h v).mp ⟨w, hw, hv⟩).2
  have hp : (∃ w ∈ ws, c.written w ≠ none) ↔ p := by
    constructor
    · rintro ⟨w, hw, hset⟩
      obtain ⟨v, hv⟩ := Option.ne_none_iff_exists'.mp hset
      exact ((h v).mp ⟨w, hw, hv⟩).1
    · intro hp
      obtain ⟨w, hw, hv⟩ := (h value).mpr ⟨hp, rfl⟩
      exact ⟨w, hw, by rw [hv]; exact Option.some_ne_none _⟩
  rw [c.read_foldl, c.writtenBy_of_forall hvalue hp]
  split <;> rfl

theorem read_foldl_of_unwritten {ws : List W} (h : ∀ v, ¬ ∃ w ∈ ws, c.written w = some v) (s : S) :
    c.read (ws.foldl apply s) = c.read s := by
  have hnone : c.writtenBy ws = none := c.writtenBy_eq_none_iff.mpr fun w hw =>
    Option.eq_none_iff_forall_ne_some.mpr fun v hv => h v ⟨w, hw, hv⟩
  rw [c.read_foldl, hnone]
  rfl

end Cell

end LastEffect
