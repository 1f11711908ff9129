-- SUMMARY: A worklist walk over the nodes beneath a root: what it visits, and that it ends on trees.
import Mathlib

/-!
# Walks

The walk keeps a list of visited nodes and a list of pending ones. It visits the first pending node and appends its
children. What it returns is what lies beneath the pending nodes. On a tree it needs one step for each node, so fuel
for all nodes is enough, and it visits each node once and after its parent.
-/

namespace Walk

variable {K : Type*} (children : K → List K)

/-- Visits pending nodes in turn, `none` when the fuel does not suffice. -/
def walk : Nat → List K → List K → Option (List K)
  | _, visited, [] => some visited
  | 0, _, _ :: _ => none
  | fuel + 1, visited, p :: pending => walk fuel (visited ++ [p]) (pending ++ children p)

/-- `d` is `p` or lies beneath it. -/
def Beneath (p d : K) : Prop := Relation.ReflTransGen (fun a b => b ∈ children a) p d

variable {children} {fuel : Nat} {visited pending out : List K} {root d : K}

theorem walk_nil (fuel : Nat) (visited : List K) : walk children fuel visited [] = some visited := by
  cases fuel <;> rfl

/-! ## What is visited -/

/-- Everything visited lies beneath what was pending. -/
theorem mem_walk (h : walk children fuel visited pending = some out) (hd : d ∈ out) :
    d ∈ visited ∨ ∃ p ∈ pending, Beneath children p d := by
  induction fuel, visited, pending using walk.induct children with
  | case1 fuel visited =>
    rw [walk_nil] at h
    cases h
    exact .inl hd
  | case2 visited p pending => cases h
  | case3 fuel visited p pending ih =>
    rcases ih h with hvisited | ⟨q, hq, hbeneath⟩
    · rcases List.mem_append.mp hvisited with hmem | hmem
      · exact .inl hmem
      · obtain rfl := List.mem_singleton.mp hmem
        exact .inr ⟨d, List.mem_cons_self, .refl⟩
    · rcases List.mem_append.mp hq with hmem | hmem
      · exact .inr ⟨q, List.mem_cons_of_mem _ hmem, hbeneath⟩
      · exact .inr ⟨p, List.mem_cons_self, .head hmem hbeneath⟩

/-- The walk returns what it has visited and what was pending, and misses no child of these. -/
theorem walk_closed (h : walk children fuel visited pending = some out)
    (hclosed : ∀ p ∈ visited, ∀ d ∈ children p, d ∈ visited ∨ d ∈ pending) :
    (∀ d, d ∈ visited ∨ d ∈ pending → d ∈ out) ∧ ∀ p ∈ out, ∀ d ∈ children p, d ∈ out := by
  induction fuel, visited, pending using walk.induct children with
  | case1 fuel visited =>
    rw [walk_nil] at h
    cases h
    simp only [List.not_mem_nil, or_false] at hclosed ⊢
    exact ⟨fun _ hd => hd, hclosed⟩
  | case2 visited p pending => cases h
  | case3 fuel visited p pending ih =>
    have hnext : ∀ q ∈ visited ++ [p], ∀ d ∈ children q, d ∈ visited ++ [p] ∨ d ∈ pending ++ children p := by
      intro q hq d hd
      rcases List.mem_append.mp hq with hmem | hmem
      · rcases hclosed q hmem d hd with h | h
        · exact .inl (List.mem_append_left _ h)
        · rcases List.mem_cons.mp h with rfl | h
          · exact .inl (by simp)
          · exact .inr (List.mem_append_left _ h)
      · obtain rfl := List.mem_singleton.mp hmem
        exact .inr (List.mem_append_right _ hd)
    obtain ⟨hout, hchildren⟩ := ih h hnext
    refine ⟨fun d hd => hout d ?_, hchildren⟩
    simp only [List.mem_append, List.mem_cons, List.not_mem_nil, or_false] at hd ⊢
    tauto

/-- A walk from a root returns exactly what lies beneath it. -/
theorem mem_walk_iff (h : walk children fuel [] [root] = some out) : d ∈ out ↔ Beneath children root d := by
  obtain ⟨hout, hchildren⟩ := walk_closed h nofun
  constructor
  · intro hd
    rcases mem_walk h hd with hnil | ⟨p, hp, hbeneath⟩
    · cases hnil
    · obtain rfl := List.mem_singleton.mp hp
      exact hbeneath
  · intro hd
    induction hd with
    | refl => exact hout root (by simp)
    | tail _ hchild ih => exact hchildren _ ih _ hchild

/-! ## The walk ends -/

/-- The children make trees of the nodes: a child ranks above its parent and has no other. -/
structure Forest (children : K → List K) (rank : K → Nat) (nodes : List K) : Prop where
  nodes : ∀ p, ∀ d ∈ children p, d ∈ nodes
  above : ∀ p, ∀ d ∈ children p, rank p < rank d
  parent : ∀ p q, ∀ d ∈ children p, d ∈ children q → p = q
  nodup : ∀ p, (children p).Nodup

/-- What a walk from the root has reached: nodes, each once, that came in after their parent. -/
private structure Reached (children : K → List K) (rank : K → Nat) (nodes : List K) (root : K)
    (visited pending : List K) : Prop where
  nodes : ∀ d ∈ visited ++ pending, d ∈ nodes
  above : ∀ d ∈ visited ++ pending, rank root ≤ rank d
  parent : ∀ d ∈ visited ++ pending, d = root ∨ ∃ p ∈ visited, d ∈ children p
  nodup : (visited ++ pending).Nodup
  before : ∀ front d back, visited = front ++ d :: back → d = root ∨ ∃ p ∈ front, d ∈ children p

variable {rank : K → Nat} {nodes : List K}

private theorem Reached.start (hroot : root ∈ nodes) : Reached children rank nodes root [] [root] where
  nodes := by simpa using hroot
  above := by simp
  parent := by simp
  nodup := by simp
  before front d back heq := absurd heq (by simp)

private theorem Reached.step {p : K} (hforest : Forest children rank nodes)
    (h : Reached children rank nodes root visited (p :: pending)) :
    Reached children rank nodes root (visited ++ [p]) (pending ++ children p) := by
  have hp : p ∈ visited ++ p :: pending := by simp
  have hnew : p ∉ visited := fun hmem => (List.nodup_append.mp h.nodup).2.2 p hmem p List.mem_cons_self rfl
  have hmem : ∀ {d}, d ∈ visited ++ [p] ++ (pending ++ children p) ↔ d ∈ visited ++ p :: pending ∨ d ∈ children p := by
    intro d
    simp only [List.mem_append, List.mem_cons, List.not_mem_nil, or_false]
    tauto
  refine ⟨fun d hd => ?_, fun d hd => ?_, fun d hd => ?_, ?_, fun front d back heq => ?_⟩
  · exact (hmem.mp hd).elim (h.nodes d) (hforest.nodes p d)
  · rcases hmem.mp hd with hd | hd
    · exact h.above d hd
    · exact (h.above p hp).trans (hforest.above p d hd).le
  · rcases hmem.mp hd with hd | hd
    · refine (h.parent d hd).imp_right fun ⟨q, hq, hchild⟩ => ⟨q, List.mem_append_left _ hq, hchild⟩
    · exact .inr ⟨p, by simp, hd⟩
  · have hold : (visited ++ [p] ++ pending).Nodup := by simpa using h.nodup
    rw [← List.append_assoc]
    refine List.nodup_append.mpr ⟨hold, hforest.nodup p, ?_⟩
    -- A child that was there before came in with its only parent, which is not visited yet; and the root is no child.
    rintro d hd _ hchild rfl
    rcases h.parent d (by simpa using hd) with rfl | ⟨q, hq, hother⟩
    · exact absurd (hforest.above p d hchild) (not_lt.mpr (h.above p hp))
    · exact hnew (hforest.parent p q d hchild hother ▸ hq)
  · rcases List.eq_nil_or_concat' back with rfl | ⟨back, q, rfl⟩
    · obtain ⟨rfl, hd⟩ := List.append_inj' heq rfl
      obtain rfl := List.head_eq_of_cons_eq hd
      exact h.parent p hp
    · rw [← List.cons_append, ← List.append_assoc] at heq
      exact h.before front d back (List.append_inj' heq rfl).1

private theorem walk_isSome_of_reached (hforest : Forest children rank nodes)
    (h : Reached children rank nodes root visited pending) (hfuel : nodes.length < visited.length + fuel) :
    (walk children fuel visited pending).isSome := by
  induction fuel, visited, pending using walk.induct children with
  | case1 fuel visited => rw [walk_nil, Option.isSome_some]
  | case2 visited p pending =>
    have hsub : visited ⊆ nodes := fun d hd => h.nodes d (List.mem_append_left _ hd)
    have hle := ((List.nodup_append.mp h.nodup).1.subperm hsub).length_le
    omega
  | case3 fuel visited p pending ih =>
    refine ih (h.step hforest) ?_
    rw [List.length_append, List.length_singleton]
    omega

/-- On a forest, fuel for one step more than there are nodes is enough. -/
theorem walk_isSome (hforest : Forest children rank nodes) (hroot : root ∈ nodes) :
    (walk children (nodes.length + 1) [] [root]).isSome :=
  walk_isSome_of_reached hforest (.start hroot) (by simp)

/-- More fuel does not change what the walk returns. -/
theorem walk_mono {fuel' : Nat} (h : walk children fuel visited pending = some out) (hle : fuel ≤ fuel') :
    walk children fuel' visited pending = some out := by
  induction fuel, visited, pending using walk.induct children generalizing fuel' with
  | case1 fuel visited => rw [walk_nil] at h ⊢; exact h
  | case2 visited p pending => cases h
  | case3 fuel visited p pending ih =>
    cases fuel' with
    | zero => cases hle
    | succ fuel' => exact ih h (Nat.le_of_succ_le_succ hle)

/-! ## The order of the walk -/

private theorem Reached.walk (hforest : Forest children rank nodes)
    (h : Reached children rank nodes root visited pending) (hout : walk children fuel visited pending = some out) :
    Reached children rank nodes root out [] := by
  induction fuel, visited, pending using walk.induct children with
  | case1 fuel visited =>
    rw [walk_nil] at hout
    cases hout
    exact h
  | case2 visited p pending => cases hout
  | case3 fuel visited p pending ih => exact ih (h.step hforest) hout

/-- On a forest the walk visits each node once. -/
theorem nodup_walk (hforest : Forest children rank nodes) (hroot : root ∈ nodes)
    (h : walk children fuel [] [root] = some out) : out.Nodup := by
  simpa using ((Reached.start hroot).walk hforest h).nodup

/-- On a forest the walk visits a node after its parent. -/
theorem walk_parent_before (hforest : Forest children rank nodes) (hroot : root ∈ nodes)
    (h : walk children fuel [] [root] = some out) {front back : List K} (hd : out = front ++ d :: back) :
    d = root ∨ ∃ p ∈ front, d ∈ children p :=
  ((Reached.start hroot).walk hforest h).before front d back hd

end Walk
