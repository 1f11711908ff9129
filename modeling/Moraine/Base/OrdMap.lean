-- SUMMARY: Ordered maps and two-level ordered maps, read by lookup.
import Mathlib

/-!
# Ordered maps

Lookup lemmas for `Std.ExtTreeMap` stated with equality instead of the comparison, two-level maps with
the operations that keep or drop an emptied inner map, and the sorted union of the keys of two maps.
-/

namespace OrdMap

open Std

/-- Pairs are ordered lexicographically. -/
scoped instance instOrdPair {α β : Type*} [Ord α] [Ord β] : Ord (α × β) := lexOrd

instance instTransOrdTriple : TransOrd (Nat × Nat × Nat) := inferInstance

theorem compare_pair_eq_lt {α β : Type*} [Ord α] [Ord β] {a c : α} {b d : β} :
    compare (a, b) (c, d) = .lt ↔ compare a c = .lt ∨ compare a c = .eq ∧ compare b d = .lt := by
  simp [compare, compareLex, compareOn, Ordering.then_eq_lt]

variable {K L V : Type*} [Ord K] [TransOrd K] [LawfulEqOrd K] [Ord L] [TransOrd L] [LawfulEqOrd L]

/-- Mapping goes into the branches of a conditional lookup. -/
theorem map_ite {α β : Type*} (f : α → β) (p : Prop) [Decidable p] (x y : Option α) :
    (if p then x else y).map f = if p then x.map f else y.map f :=
  apply_ite (Option.map f) p x y

section Lookup

variable [DecidableEq K]

@[simp] theorem getElem?_insert_ite (m : ExtTreeMap K V) (k a : K) (v : V) :
    (m.insert k v)[a]? = if a = k then some v else m[a]? := by
  rw [ExtTreeMap.getElem?_insert]
  simp only [LawfulEqCmp.compare_eq_iff_eq, @eq_comm _ k a]

@[simp] theorem getElem?_erase_ite (m : ExtTreeMap K V) (k a : K) :
    (m.erase k)[a]? = if a = k then none else m[a]? := by
  rw [ExtTreeMap.getElem?_erase]
  simp only [LawfulEqCmp.compare_eq_iff_eq, @eq_comm _ k a]

/-- Putting what is there changes nothing. -/
theorem insert_of_getElem? {m : ExtTreeMap K V} {k : K} {v : V} (h : m[k]? = some v) : m.insert k v = m := by
  refine ExtTreeMap.ext_getElem? fun a => ?_
  rw [getElem?_insert_ite]
  split
  · next ha => rw [ha, h]
  · rfl

omit [DecidableEq K] [LawfulEqOrd K] in
theorem getElem?_ne_none_iff (m : ExtTreeMap K V) (k : K) : m[k]? ≠ none ↔ k ∈ m := by
  rw [ExtTreeMap.mem_iff_isSome_getElem?, Option.isSome_iff_ne_none]

/-- Put or delete one key. -/
def setKey (m : ExtTreeMap K V) (k : K) : Option V → ExtTreeMap K V
  | some v => m.insert k v
  | none => m.erase k

@[simp] theorem getElem?_setKey (m : ExtTreeMap K V) (k a : K) (v : Option V) :
    (setKey m k v)[a]? = if a = k then v else m[a]? := by
  cases v <;> simp [setKey]

/-- Put or delete a list of keys, in order. -/
def setKeys (m : ExtTreeMap K V) (ws : List (K × Option V)) : ExtTreeMap K V :=
  ws.foldl (fun m w => setKey m w.1 w.2) m

theorem getElem?_setKeys_of_not_mem {m : ExtTreeMap K V} {ws : List (K × Option V)} {k : K}
    (h : k ∉ ws.map Prod.fst) : (setKeys m ws)[k]? = m[k]? := by
  induction ws generalizing m with
  | nil => rfl
  | cons w ws ih =>
    simp only [List.map_cons, List.mem_cons, not_or] at h
    rw [setKeys, List.foldl_cons, ← setKeys, ih h.2, getElem?_setKey, if_neg h.1]

theorem getElem?_setKeys_of_mem {m : ExtTreeMap K V} {ws : List (K × Option V)} {w : K × Option V}
    (hnd : (ws.map Prod.fst).Nodup) (h : w ∈ ws) : (setKeys m ws)[w.1]? = w.2 := by
  induction ws generalizing m with
  | nil => cases h
  | cons u ws ih =>
    simp only [List.map_cons, List.nodup_cons] at hnd
    rw [setKeys, List.foldl_cons, ← setKeys]
    rcases List.mem_cons.mp h with rfl | h
    · rw [getElem?_setKeys_of_not_mem hnd.1, getElem?_setKey, if_pos rfl]
    · exact ih hnd.2 h

end Lookup

theorem mem_insert_set (s : ExtTreeSet K) (k a : K) : a ∈ s.insert k ↔ a = k ∨ a ∈ s := by
  rw [ExtTreeSet.mem_insert, LawfulEqCmp.compare_eq_iff_eq, @eq_comm _ k a]

section Values

variable {key : V → K} {m : ExtTreeMap K V}

/-- The values of a map whose values know their keys. -/
theorem mem_values_iff (hm : ∀ k v, m[k]? = some v → key v = k) (v : V) :
    v ∈ m.toList.map Prod.snd ↔ m[key v]? = some v := by
  simp only [List.mem_map, Prod.exists, exists_eq_right, ExtTreeMap.mem_toList_iff_getElem?_eq_some]
  constructor
  · rintro ⟨k, hk⟩
    rwa [hm k v hk]
  · exact fun h => ⟨_, h⟩

theorem values_sorted (hm : ∀ k v, m[k]? = some v → key v = k) :
    (m.toList.map Prod.snd).Pairwise fun v w => compare (key v) (key w) = .lt := by
  rw [List.pairwise_map]
  refine ExtTreeMap.ordered_keys_toList.imp_of_mem fun ha hb hlt => ?_
  rw [hm _ _ (ExtTreeMap.mem_toList_iff_getElem?_eq_some.mp ha),
    hm _ _ (ExtTreeMap.mem_toList_iff_getElem?_eq_some.mp hb)]
  exact hlt

/-- A sorted list is the values of a map exactly if it has the same value under every key. -/
theorem values_eq_iff (hm : ∀ k v, m[k]? = some v → key v = k) {l : List V}
    (hl : l.Pairwise fun v w => compare (key v) (key w) = .lt) {f : K → Option V}
    (hf : ∀ k v, f k = some v → key v = k) (hmem : ∀ v, v ∈ l ↔ f (key v) = some v) :
    m.toList.map Prod.snd = l ↔ ∀ k, m[k]? = f k := by
  constructor
  · intro h k
    refine Option.ext fun v => ⟨fun hv => ?_, fun hv => ?_⟩
    · have hkey := hm k v hv
      rw [← hkey] at hv ⊢
      exact (hmem v).mp (h ▸ (mem_values_iff hm v).mpr hv)
    · have hkey := hf k v hv
      rw [← hkey] at hv ⊢
      exact (mem_values_iff hm v).mp (h ▸ (hmem v).mpr hv)
  · intro h
    have hirrefl : ∀ {l : List V}, (l.Pairwise fun v w => compare (key v) (key w) = .lt) → l.Nodup :=
      fun hsorted => hsorted.imp fun {v w} hlt heq => by
        rw [heq, compare_self] at hlt
        cases hlt
    refine List.Perm.eq_of_pairwise (fun a b _ _ hab hba => ?_) (values_sorted hm) hl
      ((List.perm_ext_iff_of_nodup (hirrefl (values_sorted hm)) (hirrefl hl)).mpr fun v => ?_)
    · rw [OrientedOrd.eq_swap, hba] at hab
      cases hab
    · rw [mem_values_iff hm, hmem, h]

end Values

/-- Collecting the listed entries gives the same lookups. -/
theorem getElem?_ofList_toList [DecidableEq K] (m : ExtTreeMap K V) (k : K) :
    (ExtTreeMap.ofList m.toList compare)[k]? = m[k]? := by
  cases h : m[k]? with
  | some v =>
    exact ExtTreeMap.getElem?_ofList_of_mem ReflCmp.compare_self ExtTreeMap.distinct_keys_toList
      (ExtTreeMap.mem_toList_iff_getElem?_eq_some.mpr h)
  | none =>
    refine ExtTreeMap.getElem?_ofList_of_contains_eq_false ?_
    rw [Bool.eq_false_iff, ne_eq, List.contains_iff_mem, List.mem_map]
    rintro ⟨⟨a, v⟩, hmem, rfl⟩
    rw [ExtTreeMap.mem_toList_iff_getElem?_eq_some, h] at hmem
    cases hmem

/-! ## Maps collected from lists -/

section Collected

variable [DecidableEq K] {l : List (K × V)} {k : K} {v : V}

theorem isSome_getElem?_ofList : (ExtTreeMap.ofList l compare)[k]?.isSome ↔ k ∈ l.map Prod.fst := by
  rw [← ExtTreeMap.mem_iff_isSome_getElem?, ExtTreeMap.mem_ofList, List.contains_iff_mem]

theorem mem_of_getElem?_ofList (h : (ExtTreeMap.ofList l compare)[k]? = some v) : (k, v) ∈ l := by
  induction l using List.reverseRecOn with
  | nil => simp at h
  | append_singleton l e ih =>
    rw [ExtTreeMap.ofList_eq_insertMany_empty, ExtTreeMap.insertMany_append, ExtTreeMap.insertMany_list_singleton,
      ← ExtTreeMap.ofList_eq_insertMany_empty, getElem?_insert_ite] at h
    split at h
    · next hk =>
      cases h
      exact List.mem_append_right _ (by rw [hk]; exact List.mem_singleton_self e)
    · exact List.mem_append_left _ (ih h)

omit [DecidableEq K] in
/-- Entries put where there is none: what was there wins, and then the first entry. -/
theorem getElem?_foldl_insertIfNew [BEq K] [LawfulBEq K] (l : List (K × V)) (m : ExtTreeMap K V) (k : K) :
    (l.foldl (fun m e => m.insertIfNew e.1 e.2) m)[k]? = m[k]?.or ((l.find? (·.1 == k)).map (·.2)) := by
  classical
  induction l generalizing m with
  | nil => simp
  | cons e l ih =>
    rw [List.foldl_cons, ih, ExtTreeMap.getElem?_insertIfNew, List.find?_cons]
    simp only [LawfulEqCmp.compare_eq_iff_eq]
    by_cases hk : e.1 = k
    · subst hk
      cases hm : m[e.1]? with
      | none => simp [← getElem?_ne_none_iff, hm]
      | some v => simp [← getElem?_ne_none_iff, hm]
    · have hbeq : (e.1 == k) = false := beq_eq_false_iff_ne.mpr hk
      simp [hk, hbeq]

omit [DecidableEq K] in
/-- The first entry of a kind is the least. -/
theorem find?_toList_eq_some {m : ExtTreeMap K V} {p : K × V → Bool} {e : K × V} (h : m.toList.find? p = some e) :
    m[e.1]? = some e.2 ∧ p e ∧ ∀ k v, m[k]? = some v → p (k, v) → (k, v) = e ∨ compare e.1 k = .lt := by
  obtain ⟨hp, front, back, hsplit, hfront⟩ := List.find?_eq_some_iff_append.mp h
  refine ⟨ExtTreeMap.mem_toList_iff_getElem?_eq_some.mp (hsplit ▸ by simp), hp, fun k v hkv hpkv => ?_⟩
  have hmem : (k, v) ∈ front ++ e :: back := hsplit ▸ ExtTreeMap.mem_toList_iff_getElem?_eq_some.mpr hkv
  have hsorted := hsplit ▸ (ExtTreeMap.ordered_keys_toList (t := m))
  rcases List.mem_append.mp hmem with hmem | hmem
  · have := hfront _ hmem
    rw [hpkv] at this
    cases this
  · rcases List.mem_cons.mp hmem with heq | hmem
    · exact .inl heq
    · exact .inr (List.rel_of_pairwise_cons (List.pairwise_append.mp hsorted).2.1 hmem)

end Collected

theorem nodup_toList (m : ExtTreeMap K V) : m.toList.Nodup :=
  ExtTreeMap.distinct_keys_toList.imp fun {a b} h heq => h (by rw [heq]; exact ReflCmp.compare_self)

theorem nodup_toList_set (s : ExtTreeSet K) : s.toList.Nodup :=
  ExtTreeSet.distinct_toList.imp fun {a b} h heq => h (by rw [heq]; exact ReflCmp.compare_self)

/-- A new key adds one entry. -/
theorem toList_insert_perm [DecidableEq K] {m : ExtTreeMap K V} {k : K} (h : m[k]? = none) (v : V) :
    (m.insert k v).toList.Perm (m.toList ++ [(k, v)]) := by
  have hnd : (m.toList ++ [(k, v)]).Nodup := by
    refine List.Nodup.append (nodup_toList m) (List.nodup_singleton _) ?_
    intro x hx hx'
    rw [List.mem_singleton] at hx'
    subst hx'
    rw [ExtTreeMap.mem_toList_iff_getElem?_eq_some, h] at hx
    cases hx
  refine (List.perm_ext_iff_of_nodup (nodup_toList _) hnd).mpr ?_
  rintro ⟨a, w⟩
  simp only [ExtTreeMap.mem_toList_iff_getElem?_eq_some, getElem?_insert_ite, List.mem_append,
    List.mem_singleton, Prod.mk.injEq]
  by_cases ha : a = k
  · subst ha
    simp [h, eq_comm]
  · simp [ha]

/-- Only finitely many keys are present. -/
theorem finite_present (m : ExtTreeMap K V) : {k : K | m[k]? ≠ none}.Finite := by
  refine (List.finite_toSet m.keys).subset fun k hk => ?_
  rw [Set.mem_ofPred_eq, ne_eq, ← Option.not_isSome_iff_eq_none, not_not] at hk
  exact ExtTreeMap.mem_keys.mpr (ExtTreeMap.mem_iff_isSome_getElem?.mpr hk)

/-- The keys present in either map, ascending and without repetition. -/
def keyUnion (a b : ExtTreeMap K V) : List K := (ExtTreeSet.ofList (a.keys ++ b.keys) compare).toList

theorem mem_keyUnion [BEq K] [LawfulBEq K] {a b : ExtTreeMap K V} {k : K} :
    k ∈ keyUnion a b ↔ a[k]? ≠ none ∨ b[k]? ≠ none := by
  have hpresent : ∀ m : ExtTreeMap K V, k ∈ m ↔ m[k]? ≠ none := fun m => by
    rw [ExtTreeMap.mem_iff_isSome_getElem?, Option.isSome_iff_ne_none]
  rw [keyUnion, ExtTreeSet.mem_toList, ExtTreeSet.mem_ofList, List.contains_iff_mem, List.mem_append,
    ExtTreeMap.mem_keys, ExtTreeMap.mem_keys, hpresent, hpresent]

omit [LawfulEqOrd K] in
theorem keyUnion_sorted (a b : ExtTreeMap K V) :
    (keyUnion a b).Pairwise fun k l => compare k l = .lt :=
  ExtTreeSet.ordered_toList

/-- The values are those of the entries, in key order. -/
theorem values_eq_map_toList {K V : Type*} [Ord K] [TransOrd K] (m : ExtTreeMap K V) :
    m.values = m.toList.map Prod.snd := by
  obtain ⟨⟨q⟩⟩ := m
  induction q using Quotient.inductionOn with
  | h t =>
    change t.inner.values = (DTreeMap.Internal.Impl.Const.toList t.inner).map Prod.snd
    rw [DTreeMap.Internal.Impl.values_eq_map_snd, DTreeMap.Internal.Impl.Const.toList_eq_toListModel_map,
      List.map_map]
    rfl

theorem mem_values {m : ExtTreeMap K V} {v : V} : v ∈ m.values ↔ ∃ k : K, m[k]? = some v := by
  simp only [values_eq_map_toList, List.mem_map, Prod.exists, exists_eq_right,
    ExtTreeMap.mem_toList_iff_getElem?_eq_some]

omit [LawfulEqOrd K] [LawfulEqOrd L] in
theorem getElem?_getD_empty (m : ExtTreeMap K (ExtTreeMap L V)) (k : K) (l : L) :
    (m[k]?.getD ∅)[l]? = m[k]?.bind fun inner => inner[l]? := by
  cases m[k]? <;> simp

/-! ## Two-level maps -/

/-- A map of maps. -/
abbrev Nested (K L V : Type*) [Ord K] [Ord L] := ExtTreeMap K (ExtTreeMap L V)

/-- The value under an outer and an inner key. -/
def getNested (m : Nested K L V) (k : K) (l : L) : Option V := m[k]?.bind fun inner => inner[l]?

/-- Insert, creating the inner map when it is missing. -/
def putNested (m : Nested K L V) (k : K) (l : L) (v : V) : Nested K L V :=
  m.insert k ((m[k]?.getD ∅).insert l v)

/-- Remove, leaving an emptied inner map in place. -/
def removeNested (m : Nested K L V) (k : K) (l : L) : Nested K L V :=
  match m[k]? with
  | some inner => m.insert k (inner.erase l)
  | none => m

/-- Remove, dropping an emptied inner map. -/
def removeNestedPruned (m : Nested K L V) (k : K) (l : L) : Nested K L V :=
  match m[k]? with
  | some inner => if (inner.erase l).isEmpty then m.erase k else m.insert k (inner.erase l)
  | none => m

omit [LawfulEqOrd K] [LawfulEqOrd L] in
@[simp] theorem getNested_empty (k : K) (l : L) : getNested (∅ : Nested K L V) k l = none := by
  simp [getNested]

section Inner

omit [LawfulEqOrd K]

variable {m : Nested K L V} {k : K} {l : L} {v : V}

omit [LawfulEqOrd L] in
theorem getElem?_getD_inner (m : Nested K L V) (k : K) (l : L) : (m.getD k ∅)[l]? = getNested m k l := by
  rw [ExtTreeMap.getD_eq_getD_getElem?, getElem?_getD_empty, getNested]

theorem mem_getD_values : v ∈ (m.getD k ∅).values ↔ ∃ l : L, getNested m k l = some v := by
  simp only [mem_values, getElem?_getD_inner]

theorem getD_eq_empty_iff : m.getD k ∅ = ∅ ↔ ∀ l : L, getNested m k l = none := by
  simp only [← getElem?_getD_inner]
  refine ⟨fun h l => by rw [h, ExtTreeMap.getElem?_empty], fun h => ExtTreeMap.ext_getElem? fun l => ?_⟩
  rw [h, ExtTreeMap.getElem?_empty]

theorem minKey?_getD_eq_none_iff : (m.getD k ∅).minKey? = none ↔ ∀ l : L, getNested m k l = none := by
  rw [ExtTreeMap.minKey?_eq_none_iff, getD_eq_empty_iff]

omit [LawfulEqOrd L] in
theorem isSome_of_minKey?_getD (h : (m.getD k ∅).minKey? = some l) : (getNested m k l).isSome := by
  rw [← getElem?_getD_inner, ← ExtTreeMap.mem_iff_isSome_getElem?]
  exact ExtTreeMap.minKey?_mem h

end Inner

variable [DecidableEq K] [DecidableEq L]

@[simp] theorem getNested_putNested (m : Nested K L V) (k a : K) (l b : L) (v : V) :
    getNested (putNested m k l v) a b = if a = k ∧ b = l then some v else getNested m a b := by
  by_cases hk : a = k
  · subst hk
    cases h : m[a]? <;> by_cases hl : b = l <;> simp [getNested, putNested, h, hl]
  · simp [getNested, putNested, hk]

@[simp] theorem getNested_removeNested (m : Nested K L V) (k a : K) (l b : L) :
    getNested (removeNested m k l) a b = if a = k ∧ b = l then none else getNested m a b := by
  unfold removeNested
  cases h : m[k]? with
  | none =>
    by_cases hk : a = k
    · subst hk
      simp [getNested, h]
    · simp [hk]
  | some inner =>
    by_cases hk : a = k
    · subst hk
      by_cases hl : b = l <;> simp [getNested, h, hl]
    · simp [getNested, hk]

/-- Dropping an emptied inner map does not show in lookups. -/
@[simp] theorem getNested_removeNestedPruned (m : Nested K L V) (k a : K) (l b : L) :
    getNested (removeNestedPruned m k l) a b = if a = k ∧ b = l then none else getNested m a b := by
  rw [← getNested_removeNested]
  unfold removeNestedPruned removeNested
  cases h : m[k]? with
  | none => rfl
  | some inner =>
    simp only
    split
    · next hempty =>
      rw [ExtTreeMap.isEmpty_iff] at hempty
      by_cases hk : a = k
      · subst hk
        simp [getNested, hempty]
      · simp [getNested, hk]
    · rfl

omit [LawfulEqOrd L] [DecidableEq L] in
@[simp] theorem getNested_erase (m : Nested K L V) (k a : K) (b : L) :
    getNested (m.erase k) a b = if a = k then none else getNested m a b := by
  by_cases hk : a = k <;> simp [getNested, hk]

end OrdMap
