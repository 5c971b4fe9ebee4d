import Mathlib.Data.List.Nodup

/-!
# `Lib.LevelOrder` — the queue of a breadth-first pass over a tree

A breadth-first pass keeps the nodes it has finished (`seen`) and those it has discovered (`queue`). On a
tree it discovers every node once, and in the order of depth. Both are consequences of one invariant
(`Traversal`) that a step keeps, whatever the pass does at a node:

* `Traversal.mem_of_depth_le`: when a node reaches the front of the queue, all nodes that are not deeper
  have been discovered;
* `Traversal.mem_seen`: when the queue is empty, all nodes have been seen.
-/

namespace Lib

variable {α : Type}

/-- A tree given by its edges, with the depth of each node. `N` says which values are nodes. -/
structure LevelTree (N : α → Prop) (E : α → α → Prop) (root : α) (depth : α → Nat) : Prop where
  depth_root : depth root = 0
  depth_edge : ∀ {p q}, E p q → depth q = depth p + 1
  parent : ∀ {q}, N q → q ≠ root → ∃ p, N p ∧ E p q
  parent_unique : ∀ {p p' q}, E p q → E p' q → p = p'

/-- **The invariant of a breadth-first pass.** The queue holds nodes of at most two neighbouring levels,
    in order. -/
structure Traversal (E : α → α → Prop) (root : α) (depth : α → Nat) (seen queue : List α) : Prop where
  root_mem : root ∈ seen
  nodup : (seen ++ queue).Nodup
  parent : ∀ {q}, q ∈ seen ++ queue → q ≠ root → ∃ p ∈ seen, E p q
  closed : ∀ {p q}, p ∈ seen → E p q → q ∈ seen ++ queue
  levels : queue.Pairwise (fun x y => depth x ≤ depth y ∧ depth y ≤ depth x + 1)

variable {N : α → Prop} {E : α → α → Prop} {root : α} {depth : α → Nat} {seen queue kids : List α} {a : α}

/-- A child has not been discovered as long as its parent has not been seen. -/
theorem Traversal.not_mem_of_edge (ht : LevelTree N E root depth) (h : Traversal E root depth seen queue)
    (ha : a ∉ seen) {q : α} (hq : E a q) : q ∉ seen ++ queue := by
  intro hmem
  have hne : q ≠ root := by
    intro he
    have hd := ht.depth_edge hq
    rw [he, ht.depth_root] at hd
    omega
  obtain ⟨p, hp, hpq⟩ := h.parent hmem hne
  exact ha (ht.parent_unique hpq hq ▸ hp)

/-- The node at the front has not been seen. -/
theorem Traversal.front_not_mem (h : Traversal E root depth seen (a :: queue)) : a ∉ seen := by
  intro hs
  exact (List.nodup_append.mp h.nodup).2.2 a hs a List.mem_cons_self rfl

/-- The pass starts with the root seen and its children in the queue. -/
theorem Traversal.start (ht : LevelTree N E root depth) (hkids : ∀ {q}, q ∈ kids ↔ E root q)
    (hnd : kids.Nodup) : Traversal E root depth [root] kids where
  root_mem := List.mem_singleton_self root
  nodup := by
    refine List.nodup_cons.mpr ⟨?_, hnd⟩
    intro hr
    have hd := ht.depth_edge (hkids.mp hr)
    omega
  parent := by
    intro q hq hne
    rcases List.mem_cons.mp hq with he | hq
    · exact absurd he hne
    · exact ⟨root, List.mem_singleton_self root, hkids.mp hq⟩
  closed := by
    intro p q hp hpq
    rw [List.mem_singleton.mp hp] at hpq
    exact List.mem_cons_of_mem root (hkids.mpr hpq)
  levels := by
    apply List.pairwise_of_forall_mem_list
    intro x hx y hy
    have hdx := ht.depth_edge (hkids.mp hx)
    have hdy := ht.depth_edge (hkids.mp hy)
    omega

/-- **A step**: the front of the queue is seen and its children join the queue. -/
theorem Traversal.step (ht : LevelTree N E root depth) (h : Traversal E root depth seen (a :: queue))
    (hkids : ∀ {q}, q ∈ kids ↔ E a q) (hnd : kids.Nodup) :
    Traversal E root depth (seen ++ [a]) (queue ++ kids) := by
  have hmem : ∀ {q}, q ∈ (seen ++ [a]) ++ (queue ++ kids) ↔ q ∈ seen ++ a :: queue ∨ q ∈ kids := by
    intro q
    simp only [List.mem_append, List.mem_cons, List.not_mem_nil, or_false]
    tauto
  obtain ⟨hhead, htail⟩ := List.pairwise_cons.mp h.levels
  refine ⟨?_, ?_, ?_, ?_, ?_⟩
  · exact List.mem_append_left _ h.root_mem
  · have hcut : (seen ++ [a]) ++ (queue ++ kids) = (seen ++ a :: queue) ++ kids := by simp
    rw [hcut]
    refine List.nodup_append.mpr ⟨h.nodup, hnd, ?_⟩
    rintro x hx y hy rfl
    exact h.not_mem_of_edge ht h.front_not_mem (hkids.mp hy) hx
  · intro q hq hne
    rcases hmem.mp hq with hq | hq
    · obtain ⟨p, hp, hpq⟩ := h.parent hq hne
      exact ⟨p, List.mem_append_left _ hp, hpq⟩
    · exact ⟨a, List.mem_append_right _ (List.mem_singleton_self a), hkids.mp hq⟩
  · intro p q hp hpq
    apply hmem.mpr
    rcases List.mem_append.mp hp with hp | hp
    · exact Or.inl (h.closed hp hpq)
    · rw [List.mem_singleton.mp hp] at hpq
      exact Or.inr (hkids.mpr hpq)
  -- the children are one level below the front, and nothing in the queue is above it
  · refine List.pairwise_append.mpr ⟨htail, ?_, ?_⟩
    · apply List.pairwise_of_forall_mem_list
      intro x hx y hy
      have hdx := ht.depth_edge (hkids.mp hx)
      have hdy := ht.depth_edge (hkids.mp hy)
      omega
    · intro x hx y hy
      have hdy := ht.depth_edge (hkids.mp hy)
      have hdx := hhead x hx
      omega

/-- A node whose ancestors cannot be in the queue has been discovered. -/
theorem Traversal.mem_of_queue_deeper (ht : LevelTree N E root depth)
    (h : Traversal E root depth seen queue) {d : Nat} (hqueue : ∀ x ∈ queue, d ≤ depth x) :
    ∀ {x}, N x → depth x ≤ d → x ∈ seen ++ queue := by
  suffices hk : ∀ k, ∀ {x}, N x → depth x = k → k ≤ d → x ∈ seen ++ queue from
    fun {x} hx hle => hk (depth x) hx rfl hle
  intro k
  induction k with
  | zero =>
      intro x hx hdx _
      by_cases hr : x = root
      · rw [hr]
        exact List.mem_append_left _ h.root_mem
      · obtain ⟨p, _, hpx⟩ := ht.parent hx hr
        have hd := ht.depth_edge hpx
        omega
  | succ k ih =>
      intro x hx hdx hle
      have hr : x ≠ root := by
        intro he
        rw [he, ht.depth_root] at hdx
        omega
      obtain ⟨p, hp, hpx⟩ := ht.parent hx hr
      have hd := ht.depth_edge hpx
      rcases List.mem_append.mp (ih hp (by omega) (by omega)) with hs | hq
      · exact h.closed hs hpx
      · have hdeep := hqueue p hq
        omega

/-- **Levels are complete**: what is not deeper than the front of the queue has been discovered. -/
theorem Traversal.mem_of_depth_le (ht : LevelTree N E root depth)
    (h : Traversal E root depth seen (a :: queue)) {x : α} (hx : N x) (hle : depth x ≤ depth a) :
    x ∈ seen ++ a :: queue := by
  apply h.mem_of_queue_deeper ht _ hx hle
  intro y hy
  rcases List.mem_cons.mp hy with rfl | hy
  · exact Nat.le_refl _
  · exact ((List.pairwise_cons.mp h.levels).1 y hy).1

/-- **The pass is complete**: with nothing left in the queue, every node has been seen. -/
theorem Traversal.mem_seen (ht : LevelTree N E root depth) (h : Traversal E root depth seen []) {x : α}
    (hx : N x) : x ∈ seen := by
  simpa using h.mem_of_queue_deeper ht (fun y hy => absurd hy List.not_mem_nil) hx (Nat.le_refl _)

end Lib
