-- SUMMARY: Commands over a state that may fail: what a run that returns or fails says about its parts.
import Mathlib

/-!
# Commands

A command runs on a state and either returns a value or fails with an error; both ways it leaves a state. The
inversion lemmas take a run of a composed command apart. A command that only checks leaves the state alone, and one
that never fails is total; `Fails` says of a composed command what its failures leave.
-/

namespace Commands

variable {ε σ α β ω : Type} {s s' : σ} {e : ε}

/-! ## Runs that return -/

section Ok

variable {c : EStateM ε σ α} {f : α → EStateM ε σ β} {a : α} {b : β}

@[simp] theorem bind_eq_ok : (c >>= f) s = .ok b s' ↔ ∃ a s₁, c s = .ok a s₁ ∧ f a s₁ = .ok b s' := by
  change EStateM.bind c f s = _ ↔ _
  unfold EStateM.bind
  cases c s <;> simp

@[simp] theorem map_eq_ok {g : α → β} : (g <$> c) s = .ok b s' ↔ ∃ a, c s = .ok a s' ∧ g a = b := by
  change EStateM.map g c s = _ ↔ _
  unfold EStateM.map
  cases c s <;> simp [and_comm]

@[simp] theorem pure_eq_ok {a' : α} : (pure a : EStateM ε σ α) s = .ok a' s' ↔ a' = a ∧ s' = s := by
  change EStateM.pure a s = _ ↔ _
  simp [EStateM.pure, eq_comm]

@[simp] theorem throw_ne_ok : (throw e : EStateM ε σ α) s ≠ .ok a s' := by
  change EStateM.throw e s ≠ _
  simp [EStateM.throw]

@[simp] theorem get_eq_ok {t : σ} : (get : EStateM ε σ σ) s = .ok t s' ↔ t = s ∧ s' = s := by
  change EStateM.get s = _ ↔ _
  simp [EStateM.get, eq_comm]

@[simp] theorem modify_eq_ok {g : σ → σ} {u : Unit} : (modify g : EStateM ε σ Unit) s = .ok u s' ↔ s' = g s := by
  change EStateM.modifyGet (fun s => ((), g s)) s = _ ↔ _
  simp [EStateM.modifyGet, eq_comm]

@[simp] theorem modifyGet_eq_ok {g : σ → α × σ} : (modifyGet g : EStateM ε σ α) s = .ok a s' ↔ g s = (a, s') := by
  change EStateM.modifyGet g s = _ ↔ _
  simp [EStateM.modifyGet, Prod.ext_iff]

end Ok

/-! ## Runs that fail -/

section Error

variable {c : EStateM ε σ α} {f : α → EStateM ε σ β} {a : α}

@[simp] theorem bind_eq_error : (c >>= f) s = .error e s' ↔
    c s = .error e s' ∨ ∃ a s₁, c s = .ok a s₁ ∧ f a s₁ = .error e s' := by
  change EStateM.bind c f s = _ ↔ _
  unfold EStateM.bind
  cases c s <;> simp

@[simp] theorem map_eq_error {g : α → β} : (g <$> c) s = .error e s' ↔ c s = .error e s' := by
  change EStateM.map g c s = _ ↔ _
  unfold EStateM.map
  cases c s <;> simp

@[simp] theorem pure_ne_error : (pure a : EStateM ε σ α) s ≠ .error e s' := by
  change EStateM.pure a s ≠ _
  simp [EStateM.pure]

@[simp] theorem throw_eq_error {e' : ε} :
    (throw e' : EStateM ε σ α) s = .error e s' ↔ e = e' ∧ s' = s := by
  change EStateM.throw e' s = _ ↔ _
  simp [EStateM.throw, eq_comm]

@[simp] theorem get_ne_error : (get : EStateM ε σ σ) s ≠ .error e s' := by
  change EStateM.get s ≠ _
  simp [EStateM.get]

@[simp] theorem modify_ne_error {g : σ → σ} : (modify g : EStateM ε σ Unit) s ≠ .error e s' := by
  change EStateM.modifyGet (fun s => ((), g s)) s ≠ _
  simp [EStateM.modifyGet]

@[simp] theorem modifyGet_ne_error {g : σ → α × σ} : (modifyGet g : EStateM ε σ α) s ≠ .error e s' := by
  change EStateM.modifyGet g s ≠ _
  simp [EStateM.modifyGet]

end Error

/-! ## Checks -/

/-- The command leaves the state alone, whether it returns or fails. -/
structure Checks (c : EStateM ε σ α) : Prop where
  ok : ∀ {s a s'}, c s = .ok a s' → s' = s
  error : ∀ {s e s'}, c s = .error e s' → s' = s

namespace Checks

theorem pure (a : α) : Checks (Pure.pure a : EStateM ε σ α) :=
  ⟨fun h => (pure_eq_ok.mp h).2, fun h => absurd h pure_ne_error⟩

theorem throw (e : ε) : Checks (MonadExcept.throw e : EStateM ε σ α) :=
  ⟨fun h => absurd h throw_ne_ok, fun h => (throw_eq_error.mp h).2⟩

theorem get : Checks (MonadState.get : EStateM ε σ σ) :=
  ⟨fun h => (get_eq_ok.mp h).2, fun h => absurd h get_ne_error⟩

theorem bind {c : EStateM ε σ α} {f : α → EStateM ε σ β} (hc : Checks c) (hf : ∀ a, Checks (f a)) :
    Checks (c >>= f) where
  ok h := by
    obtain ⟨a, s₁, hrun, h⟩ := bind_eq_ok.mp h
    exact ((hf a).ok h).trans (hc.ok hrun)
  error h := by
    rcases bind_eq_error.mp h with h | ⟨a, s₁, hrun, h⟩
    · exact hc.error h
    · exact ((hf a).error h).trans (hc.ok hrun)

end Checks

/-! ## Commands without failures, and failures without effect -/

/-- The command never fails. -/
def Total (c : EStateM ε σ α) : Prop := ∀ s e s', c s ≠ .error e s'

namespace Total

theorem pure (a : α) : Total (Pure.pure a : EStateM ε σ α) := fun _ _ _ => pure_ne_error

theorem get : Total (MonadState.get : EStateM ε σ σ) := fun _ _ _ => get_ne_error

theorem modify (g : σ → σ) : Total (modify g : EStateM ε σ Unit) := fun _ _ _ => modify_ne_error

theorem modifyGet (g : σ → α × σ) : Total (MonadStateOf.modifyGet g : EStateM ε σ α) := fun _ _ _ => modifyGet_ne_error

theorem bind {c : EStateM ε σ α} {f : α → EStateM ε σ β} (hc : Total c) (hf : ∀ a, Total (f a)) : Total (c >>= f) := by
  intro s e s' h
  rcases bind_eq_error.mp h with h | ⟨a, s₁, -, h⟩
  · exact hc _ _ _ h
  · exact hf a _ _ _ h

end Total

/-- A run of the command that fails leaves a state related to the one it began in. -/
def Fails (R : σ → σ → Prop) (c : EStateM ε σ α) : Prop := ∀ s e s', c s = .error e s' → R s s'

namespace Fails

variable {R : σ → σ → Prop} {c : EStateM ε σ α} {f : α → EStateM ε σ β}

theorem of_total (hc : Total c) : Fails R c := fun s e s' h => absurd h (hc s e s')

theorem of_checks (hR : ∀ s, R s s) (hc : Checks c) : Fails R c := by
  intro s e s' h
  rw [hc.error h]
  exact hR s

/-- Checks come first. -/
theorem checks_bind (hR : ∀ s, R s s) (hc : Checks c) (hf : ∀ a, Fails R (f a)) : Fails R (c >>= f) := by
  intro s e s' h
  rcases bind_eq_error.mp h with h | ⟨a, s₁, hrun, h⟩
  · exact of_checks hR hc _ _ _ h
  · rw [← hc.ok hrun]
    exact hf a _ _ _ h

/-- Steps of the relation may come in between. -/
theorem step_bind (htrans : ∀ {s₁ s₂ s₃}, R s₁ s₂ → R s₂ s₃ → R s₁ s₃) (hc : Total c)
    (hstep : ∀ s a s', c s = .ok a s' → R s s') (hf : ∀ a, Fails R (f a)) : Fails R (c >>= f) := by
  intro s e s' h
  rcases bind_eq_error.mp h with h | ⟨a, s₁, hrun, h⟩
  · exact absurd h (hc _ _ _)
  · exact htrans (hstep _ _ _ hrun) (hf a _ _ _ h)

/-- What cannot fail may follow. -/
theorem bind_total (hc : Fails R c) (hf : ∀ a, Total (f a)) : Fails R (c >>= f) := by
  intro s e s' h
  rcases bind_eq_error.mp h with h | ⟨a, s₁, -, h⟩
  · exact hc _ _ _ h
  · exact absurd h (hf a _ _ _)

end Fails

end Commands
