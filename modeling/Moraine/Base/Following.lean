-- SUMMARY: Programs of a reader that follows a growing history of states, and rules for what they return.
import Moraine.Base.Runs

/-!
# Following a history

A reader follows a history of states. It sees one of them, and from time to time a later one. Its programs read
the state seen at the moment, one read after another, so that two reads of a program may see different states.
They also use and update what the reader holds, which the programs share.

`consistent` guards a pass of several reads by a stamp that differs from state to state: the pass is run again
if the stamp has moved. `Meets` is the program logic: it says what a program returns wherever the reader moves on
between its steps, and whatever the other programs leave in what is held. `always_sound` takes it to every run
of every number of programs.
-/

namespace Following

variable {σ κ ε α β : Type}

/-! ## Programs -/

inductive Prog (σ κ ε α : Type) where
  | done (result : Except ε α)
  /-- Reads the state seen. -/
  | read (next : σ → Prog σ κ ε α)
  /-- Takes what is held and leaves an update of it. -/
  | hold (update : κ → κ) (next : κ → Prog σ κ ε α)

namespace Prog

/-- Goes on with the value; an error ends the program. -/
def bind : Prog σ κ ε α → (α → Prog σ κ ε β) → Prog σ κ ε β
  | .done (.ok a), f => f a
  | .done (.error e), _ => .done (.error e)
  | .read next, f => .read fun s => (next s).bind f
  | .hold update next, f => .hold update fun k => (next k).bind f

instance : Monad (Prog σ κ ε) where
  pure a := .done (.ok a)
  bind := bind

/-- One read. -/
def get (f : σ → α) : Prog σ κ ε α := .read fun s => .done (.ok (f s))

/-- One read that can fail. -/
def getE (f : σ → Except ε α) : Prog σ κ ε α := .read fun s => .done (f s)

/-- A result that needs no read. -/
def ofExcept (x : Except ε α) : Prog σ κ ε α := .done x

/-- One look at what is held. -/
def look (f : κ → α) : Prog σ κ ε α := .hold id fun k => .done (.ok (f k))

/-- One update of what is held. -/
def update (f : κ → κ) : Prog σ κ ε Unit := .hold f fun _ => .done (.ok ())

/-- One program after another, up to the first error. -/
def each (f : α → Prog σ κ ε β) : List α → Prog σ κ ε (List β)
  | [] => pure []
  | a :: as => do
    let b ← f a
    let bs ← each f as
    return b :: bs

/-- What the program leaves and returns when it runs alone and every read sees `s`. -/
def alone (s : σ) : κ → Prog σ κ ε α → κ × Except ε α
  | k, .done result => (k, result)
  | k, .read next => alone s k (next s)
  | k, .hold update next => alone s (update k) (next k)

/-- Runs the pass until the stamp is the same before and after, at most `attempts` times. -/
def consistent {τ : Type} [DecidableEq τ] (stamp : σ → τ) (exhausted : ε) (pass : Prog σ κ ε α) :
    Nat → Prog σ κ ε α
  | 0 => .done (.error exhausted)
  | attempts + 1 => do
    let before ← get stamp
    let value ← pass
    let after ← get stamp
    if after = before then return value else consistent stamp exhausted pass attempts

/-- The program reads and does not use what is held. -/
def ReadOnly : Prog σ κ ε α → Prop
  | .done _ => True
  | .read next => ∀ s, (next s).ReadOnly
  | .hold _ _ => False

theorem ReadOnly.bind {p : Prog σ κ ε α} (hp : p.ReadOnly) {f : α → Prog σ κ ε β} (hf : ∀ a, (f a).ReadOnly) :
    (p >>= f).ReadOnly := by
  induction p with
  | done result =>
    cases result with
    | ok a => exact hf a
    | error e => trivial
  | read next ih => exact fun s => ih s (hp s)
  | hold update next ih => exact hp.elim

/-- Every update the program makes meets `P`. -/
def Updates (P : (κ → κ) → Prop) : Prog σ κ ε α → Prop
  | .done _ => True
  | .read next => ∀ s, (next s).Updates P
  | .hold update next => P update ∧ ∀ k, (next k).Updates P

theorem Updates.bind {P : (κ → κ) → Prop} {p : Prog σ κ ε α} (hp : p.Updates P) {f : α → Prog σ κ ε β}
    (hf : ∀ a, (f a).Updates P) : (p >>= f).Updates P := by
  induction p with
  | done result =>
    cases result with
    | ok a => exact hf a
    | error e => trivial
  | read next ih => exact fun s => ih s (hp s)
  | hold update next ih => exact ⟨hp.1, fun k => ih k (hp.2 k)⟩

theorem Updates.look_bind {P : (κ → κ) → Prop} (hid : P id) {f : κ → α} {g : α → Prog σ κ ε β}
    (h : ∀ k, (g (f k)).Updates P) : (look f >>= g).Updates P :=
  ⟨hid, h⟩

theorem ReadOnly.updates {P : (κ → κ) → Prop} {p : Prog σ κ ε α} (hp : p.ReadOnly) : p.Updates P := by
  induction p with
  | done result => trivial
  | read next ih => exact fun s => ih s (hp s)
  | hold update next ih => exact hp.elim

theorem readOnly_pure (a : α) : (pure a : Prog σ κ ε α).ReadOnly := trivial

theorem readOnly_get (f : σ → α) : (get f : Prog σ κ ε α).ReadOnly := fun _ => trivial

theorem readOnly_getE (f : σ → Except ε α) : (getE f : Prog σ κ ε α).ReadOnly := fun _ => trivial

theorem readOnly_ofExcept (x : Except ε α) : (ofExcept x : Prog σ κ ε α).ReadOnly := trivial

theorem readOnly_each {f : α → Prog σ κ ε β} (hf : ∀ a, (f a).ReadOnly) (as : List α) : (each f as).ReadOnly := by
  induction as with
  | nil => exact readOnly_pure _
  | cons a as ih => exact (hf a).bind fun _ => ih.bind fun _ => readOnly_pure _

theorem ReadOnly.consistent {τ : Type} [DecidableEq τ] {stamp : σ → τ} {exhausted : ε} {pass : Prog σ κ ε α}
    (hp : pass.ReadOnly) (attempts : Nat) : (Prog.consistent stamp exhausted pass attempts).ReadOnly := by
  induction attempts with
  | zero => trivial
  | succ attempts ih =>
    refine (readOnly_get _).bind fun _ => hp.bind fun _ => (readOnly_get _).bind fun _ => ?_
    split
    · trivial
    · exact ih

section Alone

variable (s : σ) (k : κ)

theorem alone_bind (p : Prog σ κ ε α) (f : α → Prog σ κ ε β) :
    alone s k (p >>= f) = match alone s k p with
      | (k', .ok a) => alone s k' (f a)
      | (k', .error e) => (k', .error e) := by
  induction p generalizing k with
  | done result => cases result <;> rfl
  | read next ih => exact ih s k
  | hold update next ih => exact ih k (update k)

/-- What the program returns, if its first part returns `a`. -/
theorem alone_bind_of_ok {p : Prog σ κ ε α} {a : α} (hp : (alone s k p).2 = .ok a) (f : α → Prog σ κ ε β) :
    alone s k (p >>= f) = alone s (alone s k p).1 (f a) := by
  rw [alone_bind]
  cases h : alone s k p with
  | mk k' result =>
    rw [h] at hp
    simp only at hp
    rw [hp]

@[simp] theorem alone_pure (a : α) : alone s k (pure a : Prog σ κ ε α) = (k, .ok a) := rfl

@[simp] theorem alone_get (f : σ → α) : alone s k (get f : Prog σ κ ε α) = (k, .ok (f s)) := rfl

@[simp] theorem alone_getE (f : σ → Except ε α) : alone s k (getE f : Prog σ κ ε α) = (k, f s) := rfl

@[simp] theorem alone_ofExcept (x : Except ε α) : alone s k (ofExcept x : Prog σ κ ε α) = (k, x) := rfl

@[simp] theorem alone_look (f : κ → α) : alone s k (look f : Prog σ κ ε α) = (k, .ok (f k)) := rfl

@[simp] theorem alone_update (f : κ → κ) : alone s k (update f : Prog σ κ ε Unit) = (f k, .ok ()) := rfl

theorem alone_each_get (f : α → σ → β) (as : List α) :
    alone s k (each (fun a => get (f a)) as : Prog σ κ ε (List β)) = (k, .ok (as.map fun a => f a s)) := by
  induction as with
  | nil => rfl
  | cons a as ih => rw [each, alone_bind, alone_get]; simp only [alone_bind, ih, alone_pure, List.map_cons]

/-- Alone, the first pass goes through. -/
theorem alone_consistent {τ : Type} [DecidableEq τ] (stamp : σ → τ) (exhausted : ε) (pass : Prog σ κ ε α)
    (attempts : Nat) : alone s k (consistent stamp exhausted pass (attempts + 1)) = alone s k pass := by
  rw [consistent, alone_bind, alone_get]
  simp only [alone_bind]
  cases alone s k pass with
  | mk k' result =>
    cases result with
    | ok a => simp
    | error e => rfl

end Alone

end Prog

/-! ## The program logic -/

open Prog

/-- A program whose last read saw the state at a position may read the one at `n` next. A program that stays
    `still` reads one position only. -/
def Reaches (still : Bool) : Option Nat → Nat → Prop
  | none, _ => True
  | some m, n => m ≤ n ∧ (still → n = m)

/-- From the position of its last read on, the program keeps the invariant on what is held and, if it returns,
    returns what `post` says. `inv n` is the invariant while the reader sees the state at `n`. -/
def Meets (H : List σ) (inv : Nat → κ → Prop) (still : Bool) (post : Option Nat → α → Prop) :
    Option Nat → Prog σ κ ε α → Prop
  | pos, .done (.ok a) => post pos a
  | _, .done (.error _) => True
  | pos, .read next => ∀ n s, H[n]? = some s → Reaches still pos n → Meets H inv still post (some n) (next s)
  | pos, .hold update next => ∀ n k, Reaches false pos n → inv n k →
      inv n (update k) ∧ Meets H inv still post pos (next k)

variable {H : List σ} {inv : Nat → κ → Prop} {still : Bool} {post : Option Nat → α → Prop} {pos : Option Nat}
  {p : Prog σ κ ε α}

theorem Reaches.of_still {n : Nat} (h : Reaches still pos n) : Reaches false pos n := by
  cases pos with
  | none => trivial
  | some m => exact ⟨h.1, nofun⟩

namespace Meets

theorem mono {post' : Option Nat → α → Prop} (hpost : ∀ pos a, post pos a → post' pos a)
    (h : Meets H inv still post pos p) : Meets H inv still post' pos p := by
  induction p generalizing pos with
  | done result =>
    cases result with
    | ok a => exact hpost pos a h
    | error e => trivial
  | read next ih => exact fun n s hs hn => ih s (h n s hs hn)
  | hold update next ih => exact fun n k hn hk => ⟨(h n k hn hk).1, ih k (h n k hn hk).2⟩

/-- What holds wherever the reader moves holds if it stays. -/
theorem of_moving (h : Meets H inv false post pos p) (still : Bool) : Meets H inv still post pos p := by
  induction p generalizing pos with
  | done result => cases result <;> exact h
  | read next ih => exact fun n s hs hn => ih s (h n s hs hn.of_still)
  | hold update next ih => exact fun n k hn hk => ⟨(h n k hn hk).1, ih k (h n k hn hk).2⟩

theorem bind {post' : Option Nat → β → Prop} {f : α → Prog σ κ ε β} (h : Meets H inv still post pos p)
    (hf : ∀ pos a, post pos a → Meets H inv still post' pos (f a)) : Meets H inv still post' pos (p >>= f) := by
  induction p generalizing pos with
  | done result =>
    cases result with
    | ok a => exact hf pos a h
    | error e => trivial
  | read next ih => exact fun n s hs hn => ih s (h n s hs hn)
  | hold update next ih => exact fun n k hn hk => ⟨(h n k hn hk).1, ih k (h n k hn hk).2⟩

section Rules

variable {post : Option Nat → β → Prop}

theorem get_bind {f : σ → α} {g : α → Prog σ κ ε β}
    (h : ∀ n s, H[n]? = some s → Reaches still pos n → Meets H inv still post (some n) (g (f s))) :
    Meets H inv still post pos (.get f >>= g) :=
  h

theorem getE_bind {f : σ → Except ε α} {g : α → Prog σ κ ε β}
    (h : ∀ n s a, H[n]? = some s → Reaches still pos n → f s = .ok a → Meets H inv still post (some n) (g a)) :
    Meets H inv still post pos (.getE f >>= g) := by
  intro n s hs hn
  cases hf : f s with
  | ok a =>
    simp only [hf]
    exact h n s a hs hn hf
  | error e => simp only [hf, Prog.bind, Meets]

theorem look_bind {f : κ → α} {g : α → Prog σ κ ε β}
    (h : ∀ n k, Reaches false pos n → inv n k → Meets H inv still post pos (g (f k))) :
    Meets H inv still post pos (.look f >>= g) :=
  fun n k hn hk => ⟨hk, h n k hn hk⟩

theorem update_bind {f : κ → κ} {g : Unit → Prog σ κ ε β}
    (hf : ∀ n k, Reaches false pos n → inv n k → inv n (f k)) (h : Meets H inv still post pos (g ())) :
    Meets H inv still post pos (.update f >>= g) :=
  fun n k hn hk => ⟨hf n k hn hk, h⟩

end Rules

/-- The position only moves on. -/
theorem later {m : Nat} (h : Meets H inv still post (some m) p) :
    Meets H inv still (fun pos a => (∃ n, pos = some n ∧ m ≤ n) ∧ post pos a) (some m) p := by
  suffices hall : ∀ n, m ≤ n → Meets H inv still post (some n) p →
      Meets H inv still (fun pos a => (∃ n, pos = some n ∧ m ≤ n) ∧ post pos a) (some n) p from hall m le_rfl h
  clear h
  induction p with
  | done result =>
    intro n hmn h
    cases result with
    | ok a => exact ⟨⟨n, rfl, hmn⟩, h⟩
    | error e => trivial
  | read next ih => exact fun n hmn h n' s hs hn' => ih s n' (hmn.trans hn'.1) (h n' s hs hn')
  | hold update next ih => exact fun n hmn h n' k hn' hk => ⟨(h n' k hn' hk).1, ih k n hmn (h n' k hn' hk).2⟩

/-- A program that stays still ends where it is. -/
theorem stays {m : Nat} (h : Meets H inv true post (some m) p) :
    Meets H inv true (fun pos a => pos = some m ∧ post pos a) (some m) p := by
  induction p with
  | done result =>
    cases result with
    | ok a => exact ⟨rfl, h⟩
    | error e => trivial
  | read next ih =>
    intro n s hs hn
    obtain rfl : n = m := hn.2 rfl
    exact ih s (h n s hs hn)
  | hold update next ih => exact fun n k hn hk => ⟨(h n k hn hk).1, ih k (h n k hn hk).2⟩

/-- What a program returns if it stays still is what it returns if it ends where it began. -/
theorem of_still {m : Nat} {q : α → Prop} (hkeeps : Meets H inv false (fun _ _ => True) (some m) p)
    (hstill : Meets H inv true (fun _ a => q a) (some m) p) :
    Meets H inv false (fun pos a => pos = some m → q a) (some m) p := by
  induction p with
  | done result =>
    cases result with
    | ok a => exact fun _ => hstill
    | error e => trivial
  | read next ih =>
    intro n s hs hn
    by_cases hnm : n = m
    · subst hnm
      exact ih s (hkeeps n s hs hn) (hstill n s hs ⟨le_rfl, fun _ => rfl⟩)
    · -- The reader has moved on and does not come back.
      refine (hkeeps n s hs hn).later.mono fun pos a ⟨⟨n', hpos, hle⟩, _⟩ heq => ?_
      rw [hpos, Option.some.injEq] at heq
      exact absurd (le_antisymm (hle.trans_eq heq) hn.1) hnm
  | hold update next ih =>
    exact fun n k hn hk => ⟨(hkeeps n k hn hk).1, ih k (hkeeps n k hn hk).2 (hstill n k hn hk).2⟩

/-- A guarded pass returns what it returns at one position, where stamps tell positions apart. -/
theorem consistent {τ : Type} [DecidableEq τ] {stamp : σ → τ} {exhausted : ε}
    (hstamp : ∀ (m n : Nat) s t, H[m]? = some s → H[n]? = some t → stamp s = stamp t → m = n) {q : Nat → σ → α → Prop}
    (hkeeps : ∀ n, Meets H inv false (fun _ _ => True) (some n) p)
    (hstill : ∀ n s, H[n]? = some s → Meets H inv true (fun _ a => q n s a) (some n) p) (attempts : Nat) :
    Meets H inv false (fun pos a => ∃ n s, pos = some n ∧ H[n]? = some s ∧ q n s a) pos
      (Prog.consistent stamp exhausted p attempts) := by
  induction attempts generalizing pos with
  | zero => trivial
  | succ attempts ih =>
    refine get_bind fun n s hs _ => ?_
    refine bind (of_still (hkeeps n) (hstill n s hs)).later fun pos value ⟨⟨m, hpos, hle⟩, hvalue⟩ => ?_
    subst hpos
    refine get_bind fun n' s' hs' hn' => ?_
    split
    · next heq =>
      obtain rfl : n' = n := hstamp n' n s' s hs' hs heq
      obtain rfl : m = n' := le_antisymm hn'.1 hle
      exact ⟨m, s, rfl, hs, hvalue rfl⟩
    · exact ih

/-- A program that only reads keeps every invariant. -/
theorem of_readOnly (hp : p.ReadOnly) : Meets H inv still (fun _ _ => True) pos p := by
  induction p generalizing pos with
  | done result => cases result <;> trivial
  | read next ih => exact fun n s _ _ => ih s (hp s)
  | hold update next ih => exact hp.elim

/-- A program that only reads and stays still returns what it returns alone. -/
theorem alone_of_readOnly (hp : p.ReadOnly) {n : Nat} {s : σ} (hs : H[n]? = some s) :
    Meets H inv true (fun _ a => ∀ k, (alone s k p).2 = .ok a) (some n) p := by
  induction p with
  | done result =>
    cases result with
    | ok a => exact fun _ => rfl
    | error e => trivial
  | read next ih =>
    intro n' s' hs' hn'
    obtain rfl : n' = n := hn'.2 rfl
    obtain rfl : s' = s := Option.some.inj (hs'.symm.trans hs)
    exact ih s' (hp s')
  | hold update next ih => exact hp.elim

/-- A guarded pass that only reads returns what it returns alone at one position. -/
theorem consistent_readOnly {τ : Type} [DecidableEq τ] {stamp : σ → τ} {exhausted : ε}
    (hstamp : ∀ (m n : Nat) s t, H[m]? = some s → H[n]? = some t → stamp s = stamp t → m = n) (hp : p.ReadOnly)
    (attempts : Nat) :
    Meets H inv false (fun pos a => ∃ n s, pos = some n ∧ H[n]? = some s ∧ ∀ k, (alone s k p).2 = .ok a) pos
      (Prog.consistent stamp exhausted p attempts) :=
  consistent (q := fun _ s a => ∀ k, (alone s k p).2 = .ok a) hstamp (fun _ => of_readOnly hp)
    (fun _ _ hs => alone_of_readOnly hp hs) attempts

end Meets

/-! ## Runs of a reader -/

variable {ι : Type}

/-- A program in flight, with the position of its last read. -/
structure Call (σ κ ε ι α : Type) where
  query : ι
  prog : Prog σ κ ε α
  pos : Option Nat := none

structure Reader (σ κ ε ι α : Type) where
  /-- The position of the state seen. -/
  seen : Nat := 0
  held : κ
  calls : List (Call σ κ ε ι α) := []
  answers : List (ι × Except ε α) := []

inductive Event (ι : Type) where
  /-- The reader sees a later state. -/
  | poll (n : Nat)
  | start (query : ι)
  /-- A program takes its next step. -/
  | step (i : Nat)

namespace Reader

def stepCall (H : List σ) (r : Reader σ κ ε ι α) (i : Nat) (c : Call σ κ ε ι α) : Option (Reader σ κ ε ι α) :=
  match c.prog with
  | .done result => some { r with calls := r.calls.eraseIdx i, answers := r.answers ++ [(c.query, result)] }
  | .read next => H[r.seen]?.map fun s =>
      { r with calls := r.calls.set i { c with prog := next s, pos := some r.seen } }
  | .hold update next => some
      { r with held := update r.held, calls := r.calls.set i { c with prog := next r.held } }

def step (H : List σ) (prog : ι → Prog σ κ ε α) (r : Reader σ κ ε ι α) : Event ι → Option (Reader σ κ ε ι α)
  | .poll n => if r.seen ≤ n ∧ n < H.length then some { r with seen := n } else none
  | .start query => some { r with calls := r.calls ++ [{ query := query, prog := prog query }] }
  | .step i => r.calls[i]?.bind (r.stepCall H i)

/-- The programs of the queries that must stay still do: such a program reads only while the reader sees the
    state its last read saw. -/
def KeepsStill (still : ι → Bool) (r : Reader σ κ ε ι α) : Event ι → Prop
  | .step i => ∀ c next n, r.calls[i]? = some c → c.prog = .read next → c.pos = some n →
      still c.query → r.seen = n
  | _ => True

/-- What is held is as it should be, and the programs meet their specifications. -/
structure Sound (H : List σ) (inv : Nat → κ → Prop) (still : ι → Bool) (post : ι → α → Prop)
    (r : Reader σ κ ε ι α) : Prop where
  held : inv r.seen r.held
  past : ∀ c ∈ r.calls, ∀ n, c.pos = some n → n ≤ r.seen
  calls : ∀ c ∈ r.calls, Meets H inv (still c.query) (fun _ a => post c.query a) c.pos c.prog
  answers : ∀ q a, (q, .ok a) ∈ r.answers → post q a

section Runs

variable {still : ι → Bool} {post : ι → α → Prop} {prog : ι → Prog σ κ ε α} {r r' : Reader σ κ ε ι α}

private theorem Sound.reaches (h : Sound H inv still post r) {c : Call σ κ ε ι α} (hc : c ∈ r.calls) :
    Reaches false c.pos r.seen := by
  cases hpos : c.pos with
  | none => trivial
  | some n => exact ⟨h.past c hc n hpos, nofun⟩

private theorem Sound.stepCall (h : Sound H inv still post r) {i : Nat} {c : Call σ κ ε ι α}
    (hc : r.calls[i]? = some c)
    (hstill : ∀ next n, c.prog = .read next → c.pos = some n → still c.query → r.seen = n)
    (hstep : r.stepCall H i c = some r') : Sound H inv still post r' := by
  have hmem := List.mem_of_getElem? hc
  have hmeets := h.calls c hmem
  have hreaches := h.reaches hmem
  unfold Reader.stepCall at hstep
  cases hprog : c.prog with
  | done result =>
    rw [hprog] at hstep hmeets
    cases hstep
    refine ⟨h.held, fun c' hc' => h.past c' (List.mem_of_mem_eraseIdx hc'),
      fun c' hc' => h.calls c' (List.mem_of_mem_eraseIdx hc'), fun q a ha => ?_⟩
    rcases List.mem_append.mp ha with ha | ha
    · exact h.answers q a ha
    · cases List.mem_singleton.mp ha
      exact hmeets
  | read next =>
    rw [hprog] at hstep hmeets
    obtain ⟨s, hs, rfl⟩ := Option.map_eq_some_iff.mp hstep
    refine ⟨h.held, fun c' hc' n hn => ?_, fun c' hc' => ?_, h.answers⟩
    · rcases List.mem_or_eq_of_mem_set hc' with hc' | rfl
      · exact h.past c' hc' n hn
      · cases hn
        exact le_rfl
    · rcases List.mem_or_eq_of_mem_set hc' with hc' | rfl
      · exact h.calls c' hc'
      · refine hmeets r.seen s hs ?_
        cases hpos : c.pos with
        | none => trivial
        | some n => exact ⟨h.past c hmem n hpos, hstill next n hprog hpos⟩
  | hold update next =>
    rw [hprog] at hstep hmeets
    cases hstep
    obtain ⟨hinv, hnext⟩ := hmeets r.seen r.held hreaches h.held
    refine ⟨hinv, fun c' hc' n hn => ?_, fun c' hc' => ?_, h.answers⟩
    · rcases List.mem_or_eq_of_mem_set hc' with hc' | rfl
      · exact h.past c' hc' n hn
      · exact h.past c hmem n hn
    · rcases List.mem_or_eq_of_mem_set hc' with hc' | rfl
      · exact h.calls c' hc'
      · exact hnext

variable (hinv : ∀ m n k, m ≤ n → inv m k → inv n k)
  (hprog : ∀ q, Meets H inv (still q) (fun _ a => post q a) none (prog q))

include hinv hprog

theorem Sound.step (h : Sound H inv still post r) {e : Event ι} (hq : r.KeepsStill still e)
    (hstep : r.step H prog e = some r') : Sound H inv still post r' := by
  cases e with
  | poll n =>
    rw [Reader.step] at hstep
    split at hstep
    · next hn =>
      cases hstep
      exact ⟨hinv _ _ _ hn.1 h.held, fun c hc m hm => (h.past c hc m hm).trans hn.1, h.calls, h.answers⟩
    · cases hstep
  | start q =>
    cases hstep
    refine ⟨h.held, fun c hc n hn => ?_, fun c hc => ?_, h.answers⟩
    · rcases List.mem_append.mp hc with hc | hc
      · exact h.past c hc n hn
      · rw [List.mem_singleton.mp hc] at hn
        cases hn
    · rcases List.mem_append.mp hc with hc | hc
      · exact h.calls c hc
      · rw [List.mem_singleton.mp hc]
        exact hprog q
  | step i =>
    obtain ⟨c, hc, hstep⟩ := Option.bind_eq_some_iff.mp hstep
    exact h.stepCall hc (fun next n => hq c next n hc) hstep

/-- Where each program meets its specification, every run answers as specified and keeps the invariant. -/
theorem always_sound {k : κ} (hk : inv 0 k) {events : List (Event ι)}
    (hstill : Runs.Throughout (Reader.step H prog) (KeepsStill still) { held := k } events) :
    Runs.Always (Reader.step H prog) (Sound H inv still post) { held := k } events := by
  refine Runs.always_of_throughout (fun h hq hstep => h.step hinv hprog hq hstep) ?_ hstill
  exact ⟨hk, fun c hc => (by cases hc), fun c hc => (by cases hc), fun q a ha => (by cases ha)⟩

end Runs

/-- A run keeps its programs still if the reader does not move on while one is between two reads. -/
theorem throughout_keepsStill {prog : ι → Prog σ κ ε α} {r₀ : Reader σ κ ε ι α} {events : List (Event ι)}
    (still : ι → Bool)
    (hpos : ∀ i < events.length, (Runs.run (Reader.step H prog) r₀ (events.take i)).all fun r =>
      r.calls.all fun c => c.pos.all (· = r.seen)) :
    Runs.Throughout (Reader.step H prog) (KeepsStill still) r₀ events := by
  refine Runs.throughout_of_getElem? fun i e r he hrun => ?_
  have hcalls := hpos i (List.getElem?_eq_some_iff.mp he).1
  rw [hrun, Option.all_some, List.all_eq_true] at hcalls
  cases e with
  | step j =>
    intro c next n hc _ hn _
    have hseen := hcalls c (List.mem_of_getElem? hc)
    rw [hn, Option.all_some, decide_eq_true_iff] at hseen
    exact hseen.symm
  | _ => trivial

end Reader

end Following
