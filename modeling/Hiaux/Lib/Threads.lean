import Mathlib.Algebra.BigOperators.Group.List.Basic
import Mathlib.Algebra.GroupWithZero.Nat
import Mathlib.Algebra.Order.BigOperators.Group.List
import Mathlib.Algebra.Order.Group.Nat

/-!
# `Lib.Threads` — interleavings of threads

A program of threads is given by what one atomic step of a thread does to the state the threads share, and
by the events that start threads. A run interleaves the steps of all threads in any order; `Lib.Run` has
its invariants.

Two kinds of fact about the threads carry such invariants: how often something occurs among them (`total`,
a sum of weights, of which one step changes one summand), and that one of them is at a certain point
(`exists_mem_set`).
-/

namespace Lib

/-- A program of threads: `σ` is what they share, `π` where one of them is, `ε` the events, and `χ` what
    the program leaves open in a step. -/
structure Threads (σ π ε χ : Type) where
  /-- An event may change the shared state and start threads. -/
  event : σ → ε → Option (σ × List π)
  /-- One atomic step of a thread; none when it is blocked or has come to its end. -/
  next : σ → π → χ → Option (σ × π)

namespace Threads

variable {σ π ε χ : Type}

/-- The shared state and the threads started so far. -/
structure Config (σ π : Type) where
  shared : σ
  locals : List π
deriving DecidableEq, Repr

/-- What a run is made of. -/
inductive Input (ε χ : Type) where
  | event (e : ε)
  | thread (i : Nat) (c : χ)
deriving DecidableEq, Repr

/-- One step of the system. -/
def step (T : Threads σ π ε χ) (s : Config σ π) : Input ε χ → Option (Config σ π)
  | .event e => (T.event s.shared e).map (fun r => ⟨r.1, s.locals ++ r.2⟩)
  | .thread i c =>
      s.locals[i]?.bind (fun p => (T.next s.shared p c).map (fun r => ⟨r.1, s.locals.set i r.2⟩))

variable {T : Threads σ π ε χ} {s t : Config σ π}

/-- **What a step can do.** -/
theorem step_cases {input : Input ε χ} (h : T.step s input = some t) :
    (∃ e g ps, input = .event e ∧ T.event s.shared e = some (g, ps) ∧ t = ⟨g, s.locals ++ ps⟩) ∨
    (∃ i c p g q, input = .thread i c ∧ s.locals[i]? = some p ∧ T.next s.shared p c = some (g, q) ∧
      t = ⟨g, s.locals.set i q⟩) := by
  cases input with
  | event e =>
      obtain ⟨⟨g, ps⟩, hr, rfl⟩ := Option.map_eq_some_iff.mp h
      exact Or.inl ⟨e, g, ps, rfl, hr, rfl⟩
  | thread i c =>
      obtain ⟨p, hp, h⟩ := Option.bind_eq_some_iff.mp h
      obtain ⟨⟨g, q⟩, hr, rfl⟩ := Option.map_eq_some_iff.mp h
      exact Or.inr ⟨i, c, p, g, q, rfl, hp, hr, rfl⟩

/-! ## Counting threads -/

/-- The sum of the weights of the threads. -/
def total (w : π → Nat) (l : List π) : Nat := (l.map w).sum

@[simp] theorem total_nil (w : π → Nat) : total w [] = 0 := rfl

@[simp] theorem total_append (w : π → Nat) (l l' : List π) : total w (l ++ l') = total w l + total w l' := by
  simp [total]

@[simp] theorem total_singleton (w : π → Nat) (p : π) : total w [p] = w p := by
  simp [total]

/-- **A step of one thread changes one summand.** -/
theorem total_set (w : π → Nat) {l : List π} {i : Nat} {p : π} (h : l[i]? = some p) (q : π) :
    total w (l.set i q) + w p = total w l + w q := by
  induction l generalizing i with
  | nil => exact absurd h (by simp)
  | cons x l ih =>
      cases i with
      | zero =>
          obtain rfl : x = p := by simpa using h
          simp only [total, List.set_cons_zero, List.map_cons, List.sum_cons]
          omega
      | succ i =>
          have hrest := ih (i := i) (by simpa using h)
          simp only [total, List.set_cons_succ, List.map_cons, List.sum_cons] at hrest ⊢
          omega

theorem le_total (w : π → Nat) {l : List π} {p : π} (h : p ∈ l) : w p ≤ total w l :=
  List.le_sum_of_mem (List.mem_map_of_mem h)

theorem total_mono {w w' : π → Nat} {l : List π} (h : ∀ p ∈ l, w p ≤ w' p) : total w l ≤ total w' l :=
  List.sum_le_sum h

/-- Two threads weigh no more than all of them. -/
theorem add_le_total (w : π → Nat) {l : List π} {i j : Nat} {p q : π} (hi : l[i]? = some p) (hj : l[j]? = some q)
    (hij : j ≠ i) : w p + w q ≤ total w l := by
  induction l generalizing i j with
  | nil => exact absurd hi (by simp)
  | cons x l ih =>
      have htail : ∀ {k : Nat} {r : π}, l[k]? = some r → w r ≤ total w l := fun hk =>
        le_total w (List.mem_of_getElem? hk)
      have hcons : total w (x :: l) = w x + total w l := List.sum_cons
      cases i with
      | zero =>
          cases j with
          | zero => exact absurd rfl hij
          | succ j =>
              obtain rfl : x = p := by simpa using hi
              have hq := htail (by simpa using hj)
              omega
      | succ i =>
          cases j with
          | zero =>
              obtain rfl : x = q := by simpa using hj
              have hp := htail (by simpa using hi)
              omega
          | succ j =>
              have hrest := ih (i := i) (j := j) (by simpa using hi) (by simpa using hj) (by omega)
              omega

theorem total_eq_zero {w : π → Nat} {l : List π} (h : ∀ p ∈ l, w p = 0) : total w l = 0 := by
  refine List.sum_eq_zero ?_
  intro n hn
  obtain ⟨p, hp, rfl⟩ := List.mem_map.mp hn
  exact h p hp

theorem exists_of_total_pos {w : π → Nat} {l : List π} (h : 0 < total w l) : ∃ p ∈ l, 0 < w p := by
  by_contra hnone
  push Not at hnone
  exact absurd (total_eq_zero (fun p hp => Nat.le_zero.mp (hnone p hp))) (Nat.ne_of_gt h)

/-! ## One of the threads -/

/-- A thread of a property is still there after a step, if the step keeps the property for the thread that
    takes it and for the others. -/
theorem exists_mem_set {Q Q' : π → Prop} {l : List π} {i : Nat} {p q : π} (hi : l[i]? = some p)
    (hother : ∀ r ∈ l, Q r → Q' r) (hself : Q p → Q' q) (h : ∃ r ∈ l, Q r) : ∃ r ∈ l.set i q, Q' r := by
  obtain ⟨r, hr, hQ⟩ := h
  obtain ⟨j, hj⟩ := List.mem_iff_getElem?.mp hr
  have hlt : i < l.length := (List.getElem?_eq_some_iff.mp hi).1
  by_cases hij : i = j
  · subst hij
    obtain rfl : p = r := Option.some.inj (hi.symm.trans hj)
    exact ⟨q, List.mem_set hlt q, hself hQ⟩
  · refine ⟨r, List.mem_of_getElem? (i := j) ?_, hother r hr hQ⟩
    rw [List.getElem?_set_ne hij]
    exact hj

/-- The thread that took a step is there. -/
theorem mem_set_self {l : List π} {i : Nat} {p : π} (hi : l[i]? = some p) (q : π) : q ∈ l.set i q :=
  List.mem_set (List.getElem?_eq_some_iff.mp hi).1 q

/-- After a step, every other thread is where it was. -/
theorem getElem?_set_cases {l : List π} {i j : Nat} {q r : π} (h : (l.set i q)[j]? = some r) :
    (j = i ∧ r = q) ∨ (j ≠ i ∧ l[j]? = some r) := by
  by_cases hij : i = j
  · subst hij
    have hlt : i < (l.set i q).length := (List.getElem?_eq_some_iff.mp h).1
    rw [List.length_set] at hlt
    rw [List.getElem?_set_self hlt] at h
    exact Or.inl ⟨rfl, (Option.some.inj h).symm⟩
  · rw [List.getElem?_set_ne hij] at h
    exact Or.inr ⟨Ne.symm hij, h⟩

end Threads

end Lib
