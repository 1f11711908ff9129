-- SUMMARY: Lists of fallible computations, run in order until one fails.
import Mathlib

/-!
# Fallible computations

What a successful sequence of steps says about each step. `each` and `gather` run a fallible function along
a list, in order, and stop at the first error; the lemmas read a successful run element by element.
-/

namespace Results

variable {ε α β : Type*}

theorem bind_eq_ok {x : Except ε α} {f : α → Except ε β} {b : β} :
    x.bind f = .ok b ↔ ∃ a, x = .ok a ∧ f a = .ok b := by
  cases x <;> simp [Except.bind]

theorem map_eq_ok {x : Except ε α} {f : α → β} {b : β} : x.map f = .ok b ↔ ∃ a, x = .ok a ∧ f a = b := by
  cases x <;> simp [Except.map]

theorem state_bind_eq_ok {ε σ α β : Type} {x : EStateM ε σ α} {f : α → EStateM ε σ β} {s s' : σ} {b : β} :
    (x >>= f) s = .ok b s' ↔ ∃ a s₁, x s = .ok a s₁ ∧ f a s₁ = .ok b s' := by
  change EStateM.bind x f s = _ ↔ _
  unfold EStateM.bind
  cases x s <;> simp

/-- Runs `f` on each element and concatenates the results. -/
def gather (f : α → Except ε (List β)) : List α → Except ε (List β)
  | [] => .ok []
  | a :: as =>
    match f a with
    | .error e => .error e
    | .ok bs => (gather f as).map (bs ++ ·)

/-- Runs `f` on each element. -/
def each (f : α → Except ε β) : List α → Except ε (List β)
  | [] => .ok []
  | a :: as =>
    match f a with
    | .error e => .error e
    | .ok b => (each f as).map (b :: ·)

theorem gather_ok_cons {f : α → Except ε (List β)} {a : α} {as : List α} {bs : List β}
    (h : gather f (a :: as) = .ok bs) :
    ∃ bs₁ bs₂, f a = .ok bs₁ ∧ gather f as = .ok bs₂ ∧ bs = bs₁ ++ bs₂ := by
  rw [gather] at h
  cases ha : f a with
  | error e => rw [ha] at h; cases h
  | ok bs₁ =>
    rw [ha] at h
    cases has : gather f as with
    | error e => rw [has] at h; cases h
    | ok bs₂ =>
      rw [has] at h
      exact ⟨bs₁, bs₂, rfl, rfl, (Except.ok.inj h).symm⟩

theorem each_ok_cons {f : α → Except ε β} {a : α} {as : List α} {bs : List β}
    (h : each f (a :: as) = .ok bs) : ∃ b bs', f a = .ok b ∧ each f as = .ok bs' ∧ bs = b :: bs' := by
  rw [each] at h
  cases ha : f a with
  | error e => rw [ha] at h; cases h
  | ok b =>
    rw [ha] at h
    cases has : each f as with
    | error e => rw [has] at h; cases h
    | ok bs' =>
      rw [has] at h
      exact ⟨b, bs', rfl, rfl, (Except.ok.inj h).symm⟩

/-- The results of a successful gathering. -/
theorem mem_gather {f : α → Except ε (List β)} {as : List α} {bs : List β} (h : gather f as = .ok bs) (b : β) :
    b ∈ bs ↔ ∃ a ∈ as, ∃ bs', f a = .ok bs' ∧ b ∈ bs' := by
  induction as generalizing bs with
  | nil => cases h; simp
  | cons a as ih =>
    obtain ⟨bs₁, bs₂, ha, has, rfl⟩ := gather_ok_cons h
    simp [ha, ih has]

theorem gather_ok_of_mem {f : α → Except ε (List β)} {as : List α} {bs : List β} (h : gather f as = .ok bs)
    {a : α} (ha : a ∈ as) : ∃ bs', f a = .ok bs' := by
  induction as generalizing bs with
  | nil => cases ha
  | cons a' as ih =>
    obtain ⟨bs₁, bs₂, ha', has, rfl⟩ := gather_ok_cons h
    rcases List.mem_cons.mp ha with rfl | ha
    · exact ⟨bs₁, ha'⟩
    · exact ih has ha

theorem forall₂_comp {γ : Type*} {R : α → β → Prop} {S : β → γ → Prop} {as : List α} {bs : List β} {cs : List γ}
    (h : List.Forall₂ R as bs) (h' : List.Forall₂ S bs cs) :
    List.Forall₂ (fun a c => ∃ b, R a b ∧ S b c) as cs := by
  induction h generalizing cs with
  | nil => cases h'; exact .nil
  | cons hab _ ih =>
    cases h' with
    | cons hbc hrest => exact .cons ⟨_, hab, hbc⟩ (ih hrest)

theorem forall₂_mem_right {R : α → β → Prop} {as : List α} {bs : List β} (h : List.Forall₂ R as bs) {b : β}
    (hb : b ∈ bs) : ∃ a ∈ as, R a b := by
  induction h with
  | nil => cases hb
  | cons hab _ ih =>
    rcases List.mem_cons.mp hb with rfl | hb
    · exact ⟨_, List.mem_cons_self, hab⟩
    · obtain ⟨a, ha, hR⟩ := ih hb
      exact ⟨a, List.mem_cons_of_mem _ ha, hR⟩

theorem forall₂_mem_left {R : α → β → Prop} {as : List α} {bs : List β} (h : List.Forall₂ R as bs) {a : α}
    (ha : a ∈ as) : ∃ b ∈ bs, R a b := by
  obtain ⟨b, hb, hR⟩ := forall₂_mem_right h.flip ha
  exact ⟨b, hb, hR⟩

/-- A successful run lists the results in order. -/
theorem each_forall₂ {f : α → Except ε β} {as : List α} {bs : List β} (h : each f as = .ok bs) :
    List.Forall₂ (fun a b => a ∈ as ∧ f a = .ok b) as bs := by
  induction as generalizing bs with
  | nil => cases h; exact .nil
  | cons a as ih =>
    obtain ⟨b, bs', ha, has, rfl⟩ := each_ok_cons h
    exact .cons ⟨List.mem_cons_self, ha⟩ ((ih has).imp fun _ _ h => ⟨List.mem_cons_of_mem _ h.1, h.2⟩)

/-- Two runs that do the same step by step are the same. -/
theorem each_congr {α' : Type*} {f : α → Except ε β} {g : α' → Except ε β} {as : List α} {as' : List α'}
    (h : List.Forall₂ (fun a a' => g a' = f a) as as') : each g as' = each f as := by
  induction h with
  | nil => rfl
  | cons hstep _ ih => rw [each, each, hstep, ih]

/-- The results gathered along two matched lists, if what each pair gives is a matter of its first half. -/
theorem mem_gather_zip {γ : Type*} {f : α × γ → Except ε (List β)} {R : α → γ → Prop} {as : List α} {cs : List γ}
    {bs : List β} (hR : List.Forall₂ R as cs) (h : gather f (as.zip cs) = .ok bs) {b : β} {P : α → Prop}
    (hP : ∀ a c out, R a c → f (a, c) = .ok out → (b ∈ out ↔ P a)) : b ∈ bs ↔ ∃ a ∈ as, P a := by
  obtain ⟨hlen, hzip⟩ := List.forall₂_iff_zip.mp hR
  rw [mem_gather h]
  constructor
  · rintro ⟨⟨a, c⟩, hac, out, hout, hb⟩
    exact ⟨a, (List.of_mem_zip hac).1, (hP a c out (hzip hac) hout).mp hb⟩
  · rintro ⟨a, ha, hPa⟩
    rw [← List.map_fst_zip hlen.le] at ha
    obtain ⟨⟨a, c⟩, hac, rfl⟩ := List.mem_map.mp ha
    obtain ⟨out, hout⟩ := gather_ok_of_mem h hac
    exact ⟨(a, c), hac, out, hout, (hP a c out (hzip hac) hout).mpr hPa⟩

theorem each_append {f : α → Except ε β} {as as' : List α} {bs : List β} (h : each f (as ++ as') = .ok bs) :
    each f as = .ok (bs.take as.length) ∧ each f as' = .ok (bs.drop as.length) := by
  induction as generalizing bs with
  | nil => exact ⟨rfl, h⟩
  | cons a as ih =>
    obtain ⟨b, bs', ha, has, rfl⟩ := each_ok_cons h
    obtain ⟨htake, hdrop⟩ := ih has
    refine ⟨?_, hdrop⟩
    rw [each, ha]
    dsimp only
    rw [htake]
    rfl

theorem each_append_eq (f : α → Except ε β) (as as' : List α) :
    each f (as ++ as') = (each f as).bind fun bs => (each f as').map (bs ++ ·) := by
  induction as with
  | nil =>
    cases h : each f as' with
    | error e => simp only [List.nil_append, h]; rfl
    | ok bs => simp only [List.nil_append, h]; rfl
  | cons a as ih =>
    rw [List.cons_append, each, each]
    cases f a with
    | error e => rfl
    | ok b =>
      dsimp only
      rw [ih]
      cases each f as with
      | error e => rfl
      | ok bs =>
        cases each f as' with
        | error e => rfl
        | ok bs' => rfl

/-- The results of a successful run. -/
theorem mem_each {f : α → Except ε β} {as : List α} {bs : List β} (h : each f as = .ok bs) (b : β) :
    b ∈ bs ↔ ∃ a ∈ as, f a = .ok b := by
  induction as generalizing bs with
  | nil => cases h; simp
  | cons a as ih =>
    obtain ⟨b', bs', ha, has, rfl⟩ := each_ok_cons h
    simp [ha, ih has, eq_comm]

/-- A run succeeds if it does on each element. -/
theorem each_total {f : α → Except ε β} {as : List α} (h : ∀ a ∈ as, ∃ b, f a = .ok b) : ∃ bs, each f as = .ok bs := by
  induction as with
  | nil => exact ⟨[], rfl⟩
  | cons a as ih =>
    obtain ⟨b, hb⟩ := h a List.mem_cons_self
    obtain ⟨bs, hbs⟩ := ih fun a' ha' => h a' (List.mem_cons_of_mem _ ha')
    refine ⟨b :: bs, ?_⟩
    rw [each, hb]
    dsimp only
    rw [hbs]
    rfl

end Results
