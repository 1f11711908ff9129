-- SUMMARY: Stores whose records refer to each other and hold slots: what puts and removals keep.
import Mathlib

/-!
# References

A store maps keys to records. A record refers to keys, and may hold a slot that only one record can hold. A store is
closed if no reference dangles. Putting a record keeps a store closed if its own references are live, and removing
records if none of the rest refers to them.
-/

namespace References

variable {K V S : Type*}

/-! ## Closed stores -/

section Closed

variable {refs : K → V → List K} {f g : K → Option V}

/-- Every reference is to a live record. -/
def Closed (refs : K → V → List K) (f : K → Option V) : Prop :=
  ∀ k v, f k = some v → ∀ k' ∈ refs k v, (f k').isSome

/-- The second store is the first with one record put. -/
def Put (f g : K → Option V) (k : K) (v : V) : Prop := g k = some v ∧ ∀ k', k' ≠ k → g k' = f k'

/-- The second store is the first without the records under some keys. -/
def Drop (f g : K → Option V) (D : K → Prop) : Prop := ∀ k, D k ∧ g k = none ∨ ¬ D k ∧ g k = f k

theorem put_of_ite [DecidableEq K] {k : K} {v : V} (h : ∀ k', g k' = if k' = k then some v else f k') : Put f g k v :=
  ⟨by rw [h, if_pos rfl], fun k' hk' => by rw [h, if_neg hk']⟩

theorem drop_of_ite {D : K → Prop} [DecidablePred D] (h : ∀ k, g k = if D k then none else f k) : Drop f g D := by
  intro k
  by_cases hk : D k
  · exact .inl ⟨hk, by rw [h, if_pos hk]⟩
  · exact .inr ⟨hk, by rw [h, if_neg hk]⟩

/-- What is live stays live when a record is put. -/
theorem Put.isSome {k : K} {v : V} (h : Put f g k v) {k' : K} (hk' : k' = k ∨ (f k').isSome) : (g k').isSome := by
  by_cases heq : k' = k
  · rw [heq, h.1]
    rfl
  · rw [h.2 k' heq]
    exact hk'.resolve_left heq

theorem Put.cases {k k' : K} {v v' : V} (h : Put f g k v) (hg : g k' = some v') :
    k' = k ∧ v' = v ∨ k' ≠ k ∧ f k' = some v' := by
  by_cases heq : k' = k
  · rw [heq, h.1] at hg
    exact .inl ⟨heq, (Option.some.inj hg).symm⟩
  · rw [h.2 k' heq] at hg
    exact .inr ⟨heq, hg⟩

theorem Drop.mem {D : K → Prop} (h : Drop f g D) {k : K} {v : V} (hg : g k = some v) : ¬ D k ∧ f k = some v := by
  rcases h k with ⟨-, hnone⟩ | ⟨hk, heq⟩
  · rw [hnone] at hg
    cases hg
  · exact ⟨hk, heq ▸ hg⟩

theorem Drop.isSome_iff {D : K → Prop} (h : Drop f g D) (k : K) : (g k).isSome ↔ ¬ D k ∧ (f k).isSome := by
  rcases h k with ⟨hk, hnone⟩ | ⟨hk, heq⟩
  · simp [hnone, hk]
  · simp [heq, hk]

theorem Closed.put {k : K} {v : V} (h : Closed refs f) (hput : Put f g k v)
    (hv : ∀ k' ∈ refs k v, k' = k ∨ (f k').isSome) : Closed refs g := by
  intro j w hw k' hk'
  rcases hput.cases hw with ⟨rfl, rfl⟩ | ⟨-, hf⟩
  · exact hput.isSome (hv k' hk')
  · exact hput.isSome (.inr (h j w hf k' hk'))

/-- A store stays closed exactly if what remains does not refer to what is removed. -/
theorem Closed.drop_iff {D : K → Prop} (h : Closed refs f) (hdrop : Drop f g D) :
    Closed refs g ↔ ∀ k v, ¬ D k → f k = some v → ∀ k' ∈ refs k v, ¬ D k' := by
  constructor
  · intro hg k v hk hf k' hk'
    have hlive : g k = some v := by
      rcases hdrop k with ⟨hD, -⟩ | ⟨-, heq⟩
      · exact absurd hD hk
      · rw [heq, hf]
    exact ((hdrop.isSome_iff k').mp (hg k v hlive k' hk')).1
  · intro hrest k v hg k' hk'
    obtain ⟨hk, hf⟩ := hdrop.mem hg
    exact (hdrop.isSome_iff k').mpr ⟨hrest k v hk hf k' hk', h k v hf k' hk'⟩

end Closed

/-! ## Slots -/

section Single

variable {slot : K → V → Option S} {f g : K → Option V}

/-- No two records hold one slot. -/
def Single (slot : K → V → Option S) (f : K → Option V) : Prop :=
  ∀ k k' v v' s, f k = some v → f k' = some v' → slot k v = some s → slot k' v' = some s → k = k'

theorem Single.put {k : K} {v : V} (h : Single slot f) (hput : Put f g k v)
    (hv : ∀ k' v' s, f k' = some v' → slot k v = some s → slot k' v' = some s → k' = k) : Single slot g := by
  intro j j' w w' s hw hw' hs hs'
  rcases hput.cases hw with ⟨rfl, rfl⟩ | ⟨-, hf⟩ <;> rcases hput.cases hw' with ⟨rfl, rfl⟩ | ⟨-, hf'⟩
  · rfl
  · exact (hv j' w' s hf' hs hs').symm
  · exact hv j w s hf hs' hs
  · exact h j j' w w' s hf hf' hs hs'

theorem Single.drop {D : K → Prop} (h : Single slot f) (hdrop : Drop f g D) : Single slot g :=
  fun j j' w w' s hw hw' => h j j' w w' s (hdrop.mem hw).2 (hdrop.mem hw').2

end Single

end References
