-- SUMMARY: Self-delimiting codes that sort like what they encode, and how they compose.
import Mathlib

/-!
# Order codes

An order code writes a value as a string of letters so that two strings compare as the values do, whatever follows
each of them, and as what follows only where the values are equal. Such codes need no lengths: they are concatenated,
repeated up to a terminator and complemented, and stay order codes.
-/

namespace OrderCode

variable {α β : Type*} [Ord β]

/-- Two strings compare as `o` whatever follows each, and as what follows where `o` is a tie. -/
def Decides (o : Ordering) (xs ys : List β) : Prop := ∀ s t, compare (xs ++ s) (ys ++ t) = o.then (compare s t)

namespace Decides

variable {o p : Ordering} {xs ys us vs : List β}

theorem nil : Decides .eq ([] : List β) [] := fun _ _ => rfl

/-- A letter decides as letters compare. -/
theorem letter (x y : β) : Decides (compare x y) [x] [y] := fun s t => by
  simp [List.compare_cons_cons]

theorem append (h : Decides o xs ys) (hnext : o = .eq → Decides p us vs) :
    Decides (o.then p) (xs ++ us) (ys ++ vs) := by
  intro s t
  rw [List.append_assoc, List.append_assoc, h]
  cases o with
  | eq => exact hnext rfl s t
  | lt | gt => rfl

theorem compare_eq (h : Decides o xs ys) : compare xs ys = o := by
  have := h [] []
  rwa [List.append_nil, List.append_nil, List.compare_nil_nil, Ordering.then_eq] at this

variable [Std.LawfulEqOrd β]

theorem eq_iff (h : Decides o xs ys) : xs = ys ↔ o = .eq := by
  rw [← h.compare_eq, Std.LawfulEqOrd.compare_eq_iff_eq]

/-- Strings that a tie decides are equal, and no others share a beginning. -/
theorem prefix_iff (h : Decides o xs ys) (s : List β) : xs <+: ys ++ s ↔ o = .eq := by
  constructor
  · rintro ⟨t, ht⟩
    have := h t s
    rw [ht, Std.compare_self] at this
    exact (Ordering.then_eq_eq.mp this.symm).1
  · intro ho
    rw [h.eq_iff.mpr ho]
    exact List.prefix_append _ _

/-- A map that reverses the letters reverses what two strings decide: neither is a proper beginning of the other, so
    they differ at a letter or not at all. -/
theorem map {f : β → β} (hf : ∀ x y, compare (f x) (f y) = (compare x y).swap) (h : Decides o xs ys) :
    Decides o.swap (xs.map f) (ys.map f) := by
  induction xs generalizing ys with
  | nil =>
    cases ys with
    | nil =>
      obtain rfl : o = .eq := by simpa using (h [] []).symm
      exact nil
    | cons y ys =>
      have := h (y :: ys) []
      cases o <;> simp at this
  | cons x xs ih =>
    cases ys with
    | nil =>
      have := h [] (x :: xs)
      cases o <;> simp at this
    | cons y ys =>
      cases hxy : compare x y with
      | eq =>
        have htail : Decides o xs ys := fun s t => by simpa [List.compare_cons_cons, hxy] using h s t
        intro s t
        simpa [List.compare_cons_cons, hf, hxy] using ih htail s t
      | lt | gt =>
        have ho := h [] []
        simp only [List.append_nil, List.compare_cons_cons, hxy, List.compare_nil_nil, Ordering.then_eq] at ho
        subst ho
        intro s t
        simp [List.compare_cons_cons, hf, hxy]

end Decides

section Lists

variable {cmp : α → α → Ordering} {code : α → List β} {as bs : List α}

/-- Two lists whose members decide pairwise up to the first that differ, and end together if none do. -/
inductive Coherent (cmp : α → α → Ordering) (code : α → List β) : List α → List α → Prop
  | nil : Coherent cmp code [] []
  | cons {a b : α} {as bs : List α} (head : Decides (cmp a b) (code a) (code b))
      (tail : cmp a b = .eq → Coherent cmp code as bs) : Coherent cmp code (a :: as) (b :: bs)

namespace Coherent

/-- Codes are concatenated without lengths: the strings decide as the lists compare, member by member. -/
theorem decides (h : Coherent cmp code as bs) :
    Decides (List.compareLex cmp as bs) (as.flatMap code) (bs.flatMap code) := by
  induction h with
  | nil => exact Decides.nil
  | cons head _ ih =>
    rw [List.compareLex_cons_cons, List.flatMap_cons, List.flatMap_cons]
    exact head.append ih

theorem take (h : Coherent cmp code as bs) (n : Nat) : Coherent cmp code (as.take n) (bs.take n) := by
  induction h generalizing n with
  | nil => simpa using nil
  | cons head _ ih =>
    cases n with
    | zero => exact nil
    | succ n => exact cons head fun heq => ih heq n

/-- The string of a leading run of one list begins the string of the other exactly where the other starts with a run
    that ties with it. -/
theorem prefix_iff [Std.LawfulEqOrd β] (h : Coherent cmp code as bs) (n : Nat) :
    (as.take n).flatMap code <+: bs.flatMap code ↔ List.compareLex cmp (as.take n) (bs.take n) = .eq := by
  have hbs : bs.flatMap code = (bs.take n).flatMap code ++ (bs.drop n).flatMap code := by
    rw [← List.flatMap_append, List.take_append_drop]
  rw [hbs, (h.take n).decides.prefix_iff]

end Coherent

/-- A list closed by a letter below the first of every code sorts with a beginning before what extends it. -/
theorem decides_terminated [Std.OrientedOrd β] [Std.LawfulEqOrd β] {z : β}
    (hcode : ∀ a b, Decides (cmp a b) (code a) (code b))
    (hz : ∀ a, ∃ x xs, code a = x :: xs ∧ compare z x = .lt) (as bs : List α) :
    Decides (List.compareLex cmp as bs) (as.flatMap code ++ [z]) (bs.flatMap code ++ [z]) := by
  induction as generalizing bs with
  | nil =>
    cases bs with
    | nil =>
      intro s t
      simp [List.compare_cons_cons, List.compareLex_nil_nil]
    | cons b bs =>
      obtain ⟨x, xs, hb, hx⟩ := hz b
      intro s t
      simp [hb, List.compare_cons_cons, List.compareLex_nil_cons, hx]
  | cons a as ih =>
    cases bs with
    | nil =>
      obtain ⟨x, xs, ha, hx⟩ := hz a
      intro s t
      simp [ha, List.compare_cons_cons, List.compareLex_cons_nil, Std.OrientedCmp.gt_of_lt hx]
    | cons b bs =>
      rw [List.compareLex_cons_cons, List.flatMap_cons, List.flatMap_cons, List.append_assoc, List.append_assoc]
      exact (hcode a b).append fun _ => ih bs

end Lists

end OrderCode
