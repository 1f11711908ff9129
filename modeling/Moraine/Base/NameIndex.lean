-- SUMMARY: A name index maintained one write at a time, and when it agrees with one rebuilt from scratch.
import Mathlib

/-!
# Name indexes

A directory of named entities is kept twice: `held` says which name each id holds, `owner` which id a
name resolves to. One write replaces what an id holds; it first unlinks the name the id held before and
then links the new one, without looking at who owns either name.

A rebuilt index resolves a name to the greatest id that holds it (`Faithful`), because a rebuild links
ids in ascending order and the last link wins. The main result, `faithful_run_iff`, says exactly when an
index that was faithful before a batch of writes is faithful after it.
-/

namespace NameIndex

variable {I N : Type*}

/-- The names ids hold, and the id each name resolves to. -/
structure Directory (I N : Type*) where
  held : I → Option N
  owner : N → Option I

namespace Directory

/-- The directory of no entity. -/
def empty : Directory I N := ⟨fun _ => none, fun _ => none⟩

section Write

variable [DecidableEq I] [DecidableEq N]

/-- Replace what `i` holds by `new`: the old name is unlinked whoever owns it now, the new one is
    linked to `i`. `new = none` is a removal. -/
def write (d : Directory I N) (i : I) (new : Option N) : Directory I N where
  held := Function.update d.held i new
  owner n := if new = some n then some i else if d.held i = some n then none else d.owner n

/-- A batch of writes, in order. -/
def run (d : Directory I N) (ws : List (I × Option N)) : Directory I N :=
  ws.foldl (fun d w => d.write w.1 w.2) d

@[simp] theorem run_nil (d : Directory I N) : d.run [] = d := rfl

@[simp] theorem run_cons (d : Directory I N) (w : I × Option N) (ws : List (I × Option N)) :
    d.run (w :: ws) = (d.write w.1 w.2).run ws := rfl

theorem run_append (d : Directory I N) (us ws : List (I × Option N)) :
    d.run (us ++ ws) = (d.run us).run ws := by
  simp [run]

/-- A write touches the name its id held before the batch and the name it holds after it. -/
def Touches (d : Directory I N) (n : N) (w : I × Option N) : Prop :=
  w.2 = some n ∨ d.held w.1 = some n

instance (d : Directory I N) (n : N) (w : I × Option N) : Decidable (d.Touches n w) :=
  inferInstanceAs (Decidable (_ ∨ _))

/-- A name resolves to the greatest id holding it. -/
def Faithful [LE I] (d : Directory I N) : Prop :=
  ∀ n i, d.owner n = some i ↔ IsGreatest {j | d.held j = some n} i

/-- Every link points at an id that holds the name. -/
def Linked (d : Directory I N) : Prop := ∀ n i, d.owner n = some i → d.held i = some n

omit [DecidableEq I] [DecidableEq N] in
theorem Faithful.linked [LE I] {d : Directory I N} (hd : d.Faithful) : d.Linked :=
  fun n i h => ((hd n i).mp h).1

/-- A write never leaves a link dangling, in whatever order writes come. -/
theorem Linked.write {d : Directory I N} (hd : d.Linked) (i : I) (new : Option N) :
    (d.write i new).Linked := by
  intro n j h
  simp only [Directory.write] at h ⊢
  split at h
  · next hnew =>
    cases h
    simp [hnew]
  · next hnew =>
    split at h
    · cases h
    · next hold =>
      have hj := hd n j h
      have hne : j ≠ i := fun heq => hold (heq ▸ hj)
      rwa [Function.update_of_ne hne]

theorem Linked.run {d : Directory I N} (hd : d.Linked) (ws : List (I × Option N)) : (d.run ws).Linked := by
  induction ws generalizing d with
  | nil => exact hd
  | cons w ws ih => exact ih (hd.write w.1 w.2)

/-! ## What a batch leaves behind -/

theorem run_held_of_not_mem {d : Directory I N} {ws : List (I × Option N)} {i : I}
    (h : i ∉ ws.map Prod.fst) : (d.run ws).held i = d.held i := by
  induction ws generalizing d with
  | nil => rfl
  | cons w ws ih =>
    simp only [List.map_cons, List.mem_cons, not_or] at h
    rw [run_cons, ih h.2]
    simp [write, h.1]

theorem run_held_of_mem {d : Directory I N} {ws : List (I × Option N)} {w : I × Option N}
    (hnd : (ws.map Prod.fst).Nodup) (h : w ∈ ws) : (d.run ws).held w.1 = w.2 := by
  induction ws generalizing d with
  | nil => cases h
  | cons u ws ih =>
    simp only [List.map_cons, List.nodup_cons] at hnd
    rcases List.mem_cons.mp h with rfl | h
    · rw [run_cons, run_held_of_not_mem hnd.1]
      simp [write]
    · rw [run_cons, ih hnd.2 h]

/-- Writing an id that is not written again leaves the later writes' touches alone. -/
private theorem touches_write {d : Directory I N} {n : N} {u w : I × Option N} (h : w.1 ≠ u.1) :
    (d.write u.1 u.2).Touches n w ↔ d.Touches n w := by
  simp [Touches, write, h]

theorem run_owner_of_not_touched {d : Directory I N} {ws : List (I × Option N)} {n : N}
    (hnd : (ws.map Prod.fst).Nodup) (h : ∀ w ∈ ws, ¬ d.Touches n w) :
    (d.run ws).owner n = d.owner n := by
  induction ws generalizing d with
  | nil => rfl
  | cons u ws ih =>
    simp only [List.map_cons, List.nodup_cons] at hnd
    have hu := h u (by simp)
    simp only [Touches, not_or] at hu
    rw [run_cons, ih hnd.2]
    · simp [write, hu.1, hu.2]
    · intro w hw
      rw [touches_write]
      · exact h w (by simp [hw])
      · rintro heq
        exact hnd.1 (heq ▸ List.mem_map_of_mem hw)

/-- The last write touching a name decides what it resolves to. -/
theorem run_owner_of_last {d : Directory I N} {us vs : List (I × Option N)} {w : I × Option N} {n : N}
    (hnd : ((us ++ w :: vs).map Prod.fst).Nodup) (hw : d.Touches n w)
    (hvs : ∀ v ∈ vs, ¬ d.Touches n v) :
    (d.run (us ++ w :: vs)).owner n = if w.2 = some n then some w.1 else none := by
  simp only [List.map_append, List.map_cons, List.nodup_append, List.nodup_cons] at hnd
  obtain ⟨-, ⟨hwvs, hndvs⟩, hdis⟩ := hnd
  have hheld : ∀ v ∈ w :: vs, (d.run us).held v.1 = d.held v.1 := by
    intro v hv
    refine run_held_of_not_mem fun hmem => ?_
    exact hdis _ hmem v.1 (List.mem_map_of_mem (f := Prod.fst) hv) rfl
  rw [run_append, run_cons, run_owner_of_not_touched hndvs]
  · have hw' : w.2 = some n ∨ (d.run us).held w.1 = some n := by
      rwa [hheld w (by simp)]
    by_cases hnew : w.2 = some n
    · simp [write, hnew]
    · simp [write, hnew, hw'.resolve_left hnew]
  · intro v hv
    rw [touches_write]
    · have hv' := hvs v hv
      simpa [Touches, hheld v (by simp [hv])] using hv'
    · rintro heq
      exact hwvs (heq ▸ List.mem_map_of_mem hv)

omit [DecidableEq I] in
/-- A touched name has a last write touching it. -/
private theorem exists_last_touch (d : Directory I N) (n : N) :
    ∀ ws : List (I × Option N), (∃ w ∈ ws, d.Touches n w) →
      ∃ us w vs, ws = us ++ w :: vs ∧ d.Touches n w ∧ ∀ v ∈ vs, ¬ d.Touches n v := by
  intro ws
  induction ws with
  | nil => rintro ⟨w, hw, -⟩; cases hw
  | cons u ws ih =>
    rintro ⟨w, hw, htw⟩
    by_cases hrest : ∃ v ∈ ws, d.Touches n v
    · obtain ⟨us, w', vs, rfl, h⟩ := ih hrest
      exact ⟨u :: us, w', vs, rfl, h⟩
    · rcases List.mem_cons.mp hw with rfl | hw
      · exact ⟨[], w, ws, rfl, htw, fun v hv htv => hrest ⟨v, hv, htv⟩⟩
      · exact absurd ⟨w, hw, htw⟩ hrest

end Write

/-! ## Batches in id order -/

section Order

variable [LinearOrder I] [DecidableEq N]

/-- The writes touching one name come in ascending id order. -/
def InOrder (d : Directory I N) (ws : List (I × Option N)) : Prop :=
  ∀ n, ws.Pairwise fun a b => d.Touches n a → d.Touches n b → a.1 < b.1

/-- The batch leaves the link of `n` to `m` standing: no greater id gives `n` up, and unless `m` is
    itself written no smaller id gives `n` up or takes it. -/
def Undisturbed (d : Directory I N) (ws : List (I × Option N)) (n : N) (m : I) : Prop :=
  (∀ w ∈ ws, m < w.1 → d.held w.1 ≠ some n) ∧
    (m ∈ ws.map Prod.fst ∨ ∀ w ∈ ws, w.1 < m → ¬ d.Touches n w)

/-- Every name ends up undisturbed at the greatest id that holds it after the batch. -/
def Settled (d : Directory I N) (ws : List (I × Option N)) : Prop :=
  ∀ n m, IsGreatest {j | (d.run ws).held j = some n} m → d.Undisturbed ws n m

/-- The last touching write, with what it means for every other one. -/
private theorem exists_greatest_touch {d : Directory I N} {ws : List (I × Option N)} {n : N}
    (hnd : (ws.map Prod.fst).Nodup) (hord : d.InOrder ws) (h : ∃ w ∈ ws, d.Touches n w) :
    ∃ k ∈ ws, d.Touches n k ∧ (∀ w ∈ ws, d.Touches n w → w.1 ≤ k.1) ∧
      (d.run ws).owner n = if k.2 = some n then some k.1 else none := by
  obtain ⟨us, k, vs, rfl, hk, hvs⟩ := exists_last_touch d n ws h
  refine ⟨k, by simp, hk, ?_, run_owner_of_last hnd hk hvs⟩
  intro w hw htw
  have hpw := (List.pairwise_append.mp (hord n)).2.2
  rcases List.mem_append.mp hw with hus | hrest
  · exact (hpw w hus k (by simp) htw hk).le
  · rcases List.mem_cons.mp hrest with rfl | hv
    · exact le_rfl
    · exact absurd htw (hvs w hv)

/-- A name no write touches is held by the same ids before and after. -/
private theorem run_held_iff_of_not_touched {d : Directory I N} {ws : List (I × Option N)} {n : N}
    (hnd : (ws.map Prod.fst).Nodup) (h : ∀ w ∈ ws, ¬ d.Touches n w) (j : I) :
    (d.run ws).held j = some n ↔ d.held j = some n := by
  by_cases hj : j ∈ ws.map Prod.fst
  · obtain ⟨w, hw, rfl⟩ := List.mem_map.mp hj
    have hnt := h w hw
    simp only [Touches, not_or] at hnt
    simp [run_held_of_mem hnd hw, hnt.1, hnt.2]
  · rw [run_held_of_not_mem hj]

/-- A written id that holds `n` after the batch touched it. -/
private theorem touches_of_run_held {d : Directory I N} {ws : List (I × Option N)} {n : N}
    {w : I × Option N} (hnd : (ws.map Prod.fst).Nodup) (hw : w ∈ ws)
    (h : (d.run ws).held w.1 = some n) : d.Touches n w :=
  Or.inl (by rwa [run_held_of_mem hnd hw] at h)

/-- Where the greatest holder is undisturbed, the index resolves the name to it. -/
theorem run_owner_of_undisturbed {d : Directory I N} {ws : List (I × Option N)} {n : N} {m : I}
    (hd : d.Faithful) (hnd : (ws.map Prod.fst).Nodup) (hord : d.InOrder ws)
    (hm : IsGreatest {j | (d.run ws).held j = some n} m) (hu : d.Undisturbed ws n m) :
    (d.run ws).owner n = some m := by
  by_cases ht : ∃ w ∈ ws, d.Touches n w
  · obtain ⟨k, hk, htk, hmax, howner⟩ := exists_greatest_touch hnd hord ht
    -- The greatest touching write can be neither above nor below `m`.
    have hkm : k.1 = m := by
      rcases lt_trichotomy k.1 m with hlt | heq | hgt
      · rcases hu.2 with hmem | hlow
        · obtain ⟨w, hw, rfl⟩ := List.mem_map.mp hmem
          exact absurd (hmax w hw (touches_of_run_held hnd hw hm.1)) (not_le.mpr hlt)
        · exact absurd htk (hlow k hk hlt)
      · exact heq
      · rcases htk with hnew | hold
        · have hheld : (d.run ws).held k.1 = some n := by rw [run_held_of_mem hnd hk, hnew]
          exact absurd (hm.2 hheld) (not_le.mpr hgt)
        · exact absurd hold (hu.1 k hk hgt)
    have hnew : k.2 = some n := by
      have := hm.1
      rw [Set.mem_ofPred_eq, ← hkm, run_held_of_mem hnd hk] at this
      exact this
    rw [howner, if_pos hnew, hkm]
  · push Not at ht
    rw [run_owner_of_not_touched hnd ht, hd]
    simpa only [run_held_iff_of_not_touched hnd ht] using hm

/-- A batch in id order keeps a faithful index faithful exactly when it settles every name. -/
theorem faithful_run_iff {d : Directory I N} {ws : List (I × Option N)}
    (hd : d.Faithful) (hfin : {j | d.held j ≠ none}.Finite) (hnd : (ws.map Prod.fst).Nodup)
    (hord : d.InOrder ws) : (d.run ws).Faithful ↔ d.Settled ws := by
  constructor
  · intro hf n m hm
    have howner := (hf n m).mpr hm
    -- If anything touches `n`, the index holds `m` only because `m` is the last write to touch it.
    have key : (∃ w ∈ ws, d.Touches n w) → ∃ k ∈ ws, k.1 = m ∧ ∀ w ∈ ws, d.Touches n w → w.1 ≤ m := by
      intro ht
      obtain ⟨k, hk, -, hmax, hrun⟩ := exists_greatest_touch hnd hord ht
      rw [howner] at hrun
      have hkm : k.1 = m := by
        split at hrun
        · exact (Option.some.inj hrun).symm
        · cases hrun
      exact ⟨k, hk, hkm, hkm ▸ hmax⟩
    refine ⟨fun w hw hlt hold => ?_, ?_⟩
    · obtain ⟨k, -, -, hmax⟩ := key ⟨w, hw, Or.inr hold⟩
      exact absurd (hmax w hw (Or.inr hold)) (not_le.mpr hlt)
    · by_cases hmem : m ∈ ws.map Prod.fst
      · exact Or.inl hmem
      · refine Or.inr fun w hw _ htw => ?_
        obtain ⟨k, hk, rfl, -⟩ := key ⟨w, hw, htw⟩
        exact hmem (List.mem_map_of_mem hk)
  · intro hs n i
    -- Finitely many ids hold anything, so a held name has a greatest holder.
    have hfin' : {j | (d.run ws).held j = some n}.Finite := by
      refine (hfin.union (List.finite_toSet (ws.map Prod.fst))).subset fun j hj => ?_
      by_cases hjw : j ∈ ws.map Prod.fst
      · exact Or.inr hjw
      · rw [Set.mem_ofPred_eq, run_held_of_not_mem hjw] at hj
        exact Or.inl (by simp [hj])
    refine ⟨fun howner => ?_, fun hi => run_owner_of_undisturbed hd hnd hord hi (hs n i hi)⟩
    have hne : {j | (d.run ws).held j = some n}.Nonempty := by
      by_cases ht : ∃ w ∈ ws, d.Touches n w
      · obtain ⟨k, hk, -, -, hrun⟩ := exists_greatest_touch hnd hord ht
        rw [howner] at hrun
        split at hrun
        · next hnew => exact ⟨k.1, by simp [run_held_of_mem hnd hk, hnew]⟩
        · cases hrun
      · push Not at ht
        rw [run_owner_of_not_touched hnd ht, hd] at howner
        exact ⟨i, (run_held_iff_of_not_touched hnd ht i).mpr howner.1⟩
    obtain ⟨m, hm⟩ := hfin'.exists_maximal hne
    have hmg : IsGreatest {j | (d.run ws).held j = some n} m :=
      ⟨hm.1, fun j hj => le_of_not_gt fun hlt => absurd (hm.2 hj hlt.le) (not_le.mpr hlt)⟩
    have := run_owner_of_undisturbed hd hnd hord hmg (hs n m hmg)
    rw [howner, Option.some.injEq] at this
    exact this ▸ hmg

/-- `Settled` without the batch: `held'` is what ids hold after it, and `written` says which ids it
    writes, as far as they hold a name before or after. -/
theorem settled_iff {d : Directory I N} {ws : List (I × Option N)} {held' : I → Option N}
    {written : I → Prop} (hnd : (ws.map Prod.fst).Nodup) (hheld : ∀ i, (d.run ws).held i = held' i)
    (hwritten : ∀ i ∈ ws.map Prod.fst, written i)
    (hnamed : ∀ i n, written i → d.held i = some n ∨ held' i = some n → i ∈ ws.map Prod.fst) :
    d.Settled ws ↔ ∀ n m, IsGreatest {i | held' i = some n} m →
      (∀ i, m < i → d.held i ≠ some n) ∧
        (written m ∨ ∀ i, i < m → written i → d.held i ≠ some n ∧ held' i ≠ some n) := by
  have hval : ∀ w ∈ ws, w.2 = held' w.1 := fun w hw => by rw [← hheld, run_held_of_mem hnd hw]
  simp only [Settled, hheld]
  refine forall_congr' fun n => forall_congr' fun m => imp_congr_right fun hm => ?_
  constructor
  · rintro ⟨habove, hbelow⟩
    refine ⟨fun i hlt hold => ?_, hbelow.imp (hwritten m) fun hbelow i hlt hi => ?_⟩
    · -- An id giving the name up is written: it holds it before the batch and not after.
      have hi : i ∈ ws.map Prod.fst := by
        by_contra hi
        rw [← run_held_of_not_mem (d := d) hi, hheld] at hold
        exact absurd (hm.2 hold) (not_le.mpr hlt)
      obtain ⟨w, hw, rfl⟩ := List.mem_map.mp hi
      exact habove w hw hlt hold
    · by_contra hne
      rw [not_and_or, not_not, not_not] at hne
      obtain ⟨w, hw, rfl⟩ := List.mem_map.mp (hnamed i n hi hne)
      refine hbelow w hw hlt (hne.elim .inr fun h => .inl ?_)
      rw [hval w hw, h]
  · rintro ⟨habove, hbelow⟩
    refine ⟨fun w _ hlt => habove w.1 hlt, hbelow.imp (fun hw => hnamed m n hw (.inr hm.1)) ?_⟩
    intro hbelow w hw hlt ht
    have hne := hbelow w.1 hlt (hwritten w.1 (List.mem_map_of_mem hw))
    rcases ht with ht | ht
    · exact hne.2 (hval w hw ▸ ht)
    · exact hne.1 ht

omit [DecidableEq N] in
/-- What ids hold determines a faithful index. -/
theorem Faithful.owner_eq {d e : Directory I N} (hd : d.Faithful) (he : e.Faithful)
    (h : ∀ i, d.held i = e.held i) (n : N) : d.owner n = e.owner n := by
  refine Option.ext fun i => ?_
  rw [hd n i, he n i]
  simp only [h]

omit [DecidableEq N] in
theorem faithful_empty : (empty : Directory I N).Faithful := by
  intro n i
  simp [empty, IsGreatest]

/-- Linking ids in ascending order from nothing gives a faithful index: the rebuild. -/
theorem faithful_rebuild {ws : List (I × Option N)} (hsorted : ws.Pairwise fun a b => a.1 < b.1) :
    ((empty : Directory I N).run ws).Faithful := by
  have hnd : (ws.map Prod.fst).Nodup := by
    rw [List.nodup_iff_pairwise_ne, List.pairwise_map]
    exact hsorted.imp fun h => h.ne
  refine (faithful_run_iff faithful_empty (by simp [empty]) hnd
    (fun n => hsorted.imp fun h _ _ => h)).mpr fun n m hm => ⟨fun w _ _ => by simp [empty], Or.inl ?_⟩
  by_contra hmem
  have := hm.1
  rw [Set.mem_ofPred_eq, run_held_of_not_mem hmem] at this
  simp [empty] at this

end Order

end Directory

end NameIndex
