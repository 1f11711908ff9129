-- SUMMARY: Runs of a labelled transition function, and what holds in all their states or at all their steps.
import Mathlib

/-!
# Runs

A transition function takes a state and an event and either steps or refuses. A run is a list of events; it
ends where one is refused. The rules below turn what one step does into what holds along every run.
-/

namespace Runs

variable {σ ε : Type*} (step : σ → ε → Option σ)

/-- The state the whole list of events leads to. -/
def run : σ → List ε → Option σ
  | s, [] => some s
  | s, e :: es => (step s e).bind fun s' => run s' es

/-- `p` holds in every state of the run. -/
def Always (p : σ → Prop) : σ → List ε → Prop
  | s, [] => p s
  | s, e :: es => p s ∧ ∀ s', step s e = some s' → Always p s' es

/-- `q` holds of every event of the run, in the state it is taken in. -/
def Throughout (q : σ → ε → Prop) : σ → List ε → Prop
  | _, [] => True
  | s, e :: es => ∀ s', step s e = some s' → q s e ∧ Throughout q s' es

variable {step} {p I : σ → Prop} {q : σ → ε → Prop} {s : σ} {es : List ε}

/-- If under an invariant a step keeps `p` exactly if it meets `q`, a run keeps `p` exactly if its steps
    meet `q`. -/
theorem always_iff_throughout (hinv : ∀ {s e s'}, I s → step s e = some s' → I s')
    (hstep : ∀ {s e s'}, I s → p s → step s e = some s' → (p s' ↔ q s e)) (hs : I s) (hp : p s) :
    Always step p s es ↔ Throughout step q s es := by
  induction es generalizing s with
  | nil => exact ⟨fun _ => trivial, fun _ => hp⟩
  | cons e es ih =>
    constructor
    · rintro ⟨-, hrest⟩ s' hs'
      have halways := hrest s' hs'
      have hp' : p s' := by
        cases es with
        | nil => exact halways
        | cons e' es' => exact halways.1
      exact ⟨(hstep hs hp hs').mp hp', (ih (hinv hs hs') hp').mp halways⟩
    · intro hall
      refine ⟨hp, fun s' hs' => ?_⟩
      obtain ⟨hq, hrest⟩ := hall s' hs'
      exact (ih (hinv hs hs') ((hstep hs hp hs').mpr hq)).mpr hrest

/-- In a run whose steps are in scope `p` holds in every state exactly if the steps meet `q`, where something stronger
    than `p` is kept by exactly those steps in scope that meet `q`, and `p` fails after the others. -/
theorem always_iff_throughout_within {H : σ → Prop} {scope : σ → ε → Prop} (hp : ∀ {s}, H s → p s)
    (hstep : ∀ {s e s'}, H s → scope s e → step s e = some s' → (q s e → H s') ∧ (p s' → q s e)) (hs : H s)
    (hscope : Throughout step scope s es) : Always step p s es ↔ Throughout step q s es := by
  induction es generalizing s with
  | nil => exact iff_of_true (hp hs) trivial
  | cons e es ih =>
    constructor
    · rintro ⟨-, hall⟩ s' hs'
      obtain ⟨hin, hrest⟩ := hscope s' hs'
      obtain ⟨hkeep, hmeet⟩ := hstep hs hin hs'
      have hq : q s e := by
        refine hmeet ?_
        have hnext := hall s' hs'
        cases es with
        | nil => exact hnext
        | cons _ _ => exact hnext.1
      exact ⟨hq, (ih (hkeep hq) hrest).mp (hall s' hs')⟩
    · refine fun hall => ⟨hp hs, fun s' hs' => ?_⟩
      obtain ⟨hin, hrest⟩ := hscope s' hs'
      obtain ⟨hq, hall⟩ := hall s' hs'
      exact (ih ((hstep hs hin hs').1 hq) hrest).mpr hall

/-- A run whose steps meet `q` keeps what each such step keeps. -/
theorem always_of_throughout (hstep : ∀ {s e s'}, p s → q s e → step s e = some s' → p s') (hp : p s)
    (hall : Throughout step q s es) : Always step p s es := by
  induction es generalizing s with
  | nil => exact hp
  | cons e es ih =>
    refine ⟨hp, fun s' hs' => ?_⟩
    obtain ⟨hq, hrest⟩ := hall s' hs'
    exact ih (hstep hp hq hs') hrest

/-- A run's steps meet `q` if each event does in the state the events before it lead to. -/
theorem throughout_of_getElem? (h : ∀ i e s', es[i]? = some e → run step s (es.take i) = some s' → q s' e) :
    Throughout step q s es := by
  induction es generalizing s with
  | nil => trivial
  | cons e es ih =>
    intro s₁ hs₁
    refine ⟨h 0 e s rfl rfl, ih fun i e' s' he' hrun => h (i + 1) e' s' he' ?_⟩
    rw [List.take_succ_cons, run, hs₁]
    exact hrun

/-- So they do if each event does in the state that it finds, given what the events before it keep. -/
theorem throughout_of_inv (hstep : ∀ {s e s'}, I s → q s e → step s e = some s' → I s') (hs : I s)
    (h : ∀ i e s', es[i]? = some e → run step s (es.take i) = some s' → I s' → q s' e) : Throughout step q s es := by
  induction es generalizing s with
  | nil => trivial
  | cons e es ih =>
    intro s₁ hs₁
    have hq := h 0 e s rfl rfl hs
    refine ⟨hq, ih (hstep hs hq hs₁) fun i e' s' he' hrun => h (i + 1) e' s' he' ?_⟩
    rw [List.take_succ_cons, run, hs₁]
    exact hrun

theorem throughout_of_forall (h : ∀ s e, q s e) : Throughout step q s es := by
  induction es generalizing s with
  | nil => trivial
  | cons e es ih => exact fun s' _ => ⟨h s e, ih⟩

theorem throughout_congr {q' : σ → ε → Prop} (h : ∀ s e, q s e ↔ q' s e) :
    Throughout step q s es ↔ Throughout step q' s es := by
  rw [show q = q' from funext fun s => funext fun e => propext (h s e)]

/-- Conditions that agree on the steps from states with an invariant agree on runs. -/
theorem throughout_iff_of_inv {q' : σ → ε → Prop} (hinv : ∀ {s e s'}, I s → step s e = some s' → I s')
    (h : ∀ {s e s'}, I s → step s e = some s' → (q s e ↔ q' s e)) (hs : I s) :
    Throughout step q s es ↔ Throughout step q' s es := by
  induction es generalizing s with
  | nil => exact Iff.rfl
  | cons e es ih => exact forall₂_congr fun s' hs' => and_congr (h hs hs') (ih (hinv hs hs'))

theorem Always.mono {p' : σ → Prop} (hp : ∀ {s}, p s → p' s) (h : Always step p s es) : Always step p' s es := by
  induction es generalizing s with
  | nil => exact hp h
  | cons e es ih => exact ⟨hp h.1, fun s' hs' => ih (h.2 s' hs')⟩

/-- The state a run leads to is one of its states. -/
theorem Always.run {s' : σ} (h : Always step p s es) (hrun : run step s es = some s') : p s' := by
  induction es generalizing s with
  | nil =>
    cases hrun
    exact h
  | cons e es ih =>
    obtain ⟨s₁, hs₁, hrest⟩ := Option.bind_eq_some_iff.mp hrun
    exact ih (h.2 s₁ hs₁) hrest

end Runs
