import Hiaux.Threads.Correctness.Counters

/-!
# `Threads.Correctness.Finish` — `m_onFinished` is called at most once

The call is made under `finish_lock` and behind the flag `all_tasks_finished`. The lock is taken by
`trylock`, and a thread that finds the flag set returns without unlocking it; neither leads to a second
call, nor to a call that is lost: whenever the lock is held, the flag is set or its holder is about to set
it (`Announced.held`).
-/

namespace Hiaux
namespace Threads
namespace TaskLauncher

open Lib Lib.Threads

/-- Whether a thread is at a place. -/
def atPc (pc p : Pc) : Nat := if p = pc then 1 else 0

/-- How many threads are at a place. -/
def count (pc : Pc) (l : List Pc) : Nat := total (atPc pc) l

/-- What the finish lock and the flag under it say. The lock may be held by nobody, since a thread that
    finds the flag set returns without unlocking; the flag is set then. -/
structure Announced (g : TaskLauncher) (l : List Pc) : Prop where
  lock : count .testingAllFinished l + count .settingAllFinished l + count .callingOnFinished l +
    count .unlockingFinish l ≤ g.finishLocked.toNat
  calls : g.onFinishedCalls + count .callingOnFinished l = g.allTasksFinished.toNat
  unset : 0 < count .settingAllFinished l → g.allTasksFinished = false
  held : g.finishLocked = true →
    g.allTasksFinished = true ∨ 0 < count .testingAllFinished l + count .settingAllFinished l

/-- Whether a thread is between `finish_lock.trylock()` and `finish_lock.unlock()`. -/
def locks : Pc → Bool
  | .testingAllFinished => true
  | .settingAllFinished => true
  | .callingOnFinished => true
  | .unlockingFinish => true
  | _ => false

theorem announced_init (max : UInt64) : Announced (new max) [] :=
  ⟨Nat.le_refl 0, rfl, fun h => absurd h (Nat.lt_irrefl 0), fun h => absurd h (by simp [new])⟩

theorem locks_return (k : Caller) : locks k.return = false := by
  cases k <;> rfl

variable {g g' : TaskLauncher} {l : List Pc} {i : Nat} {p q : Pc}

theorem count_set (pc : Pc) (hi : l[i]? = some p) (q : Pc) :
    count pc (l.set i q) + atPc pc p = count pc l + atPc pc q := total_set (atPc pc) hi q

/-- A step outside the lock that does not touch what it protects. -/
theorem Announced.outside (h : Announced g l) (hi : l[i]? = some p) (hp : locks p = false)
    (hq : locks q = false) (hlocked : g'.finishLocked = g.finishLocked)
    (hall : g'.allTasksFinished = g.allTasksFinished) (hcall : g'.onFinishedCalls = g.onFinishedCalls) :
    Announced g' (l.set i q) := by
  obtain ⟨hlock, hcalls, hunset, hheld⟩ := h
  have hsame : ∀ pc, locks pc = true → count pc (l.set i q) = count pc l := by
    intro pc hpc
    have hset := count_set pc hi q
    have hpne : p ≠ pc := fun heq => by rw [heq, hpc] at hp; exact absurd hp (by simp)
    have hqne : q ≠ pc := fun heq => by rw [heq, hpc] at hq; exact absurd hq (by simp)
    simp only [atPc, if_neg hpne, if_neg hqne] at hset
    omega
  refine ⟨?_, ?_, ?_, ?_⟩
  · rw [hsame _ rfl, hsame _ rfl, hsame _ rfl, hsame _ rfl, hlocked]
    exact hlock
  · rw [hsame _ rfl, hcall, hall]
    exact hcalls
  · rw [hsame _ rfl, hall]
    exact hunset
  · rw [hsame _ rfl, hsame _ rfl, hlocked, hall]
    exact hheld

theorem Announced.next (h : Announced g l) (hi : l[i]? = some p) (htrans : Transition g p g' q) :
    Announced g' (l.set i q) := by
  have hT := count_set .testingAllFinished hi q
  have hS := count_set .settingAllFinished hi q
  have hC := count_set .callingOnFinished hi q
  have hU := count_set .unlockingFinish hi q
  have hle : g.finishLocked.toNat ≤ 1 := Bool.toNat_le _
  have ⟨hlock, hcalls, hunset, hheld⟩ := h
  cases htrans with
  | lock hfree =>
      simp only [atPc, reduceCtorEq, if_false, if_true] at hT hS hC hU
      rw [hfree, Bool.toNat_false] at hlock
      refine ⟨?_, ?_, fun hpos => ?_, fun _ => Or.inr (by omega)⟩
      · show _ ≤ 1
        omega
      · show g.onFinishedCalls + _ = g.allTasksFinished.toNat
        omega
      · omega
  | again hall =>
      simp only [atPc, reduceCtorEq, if_false, if_true] at hT hS hC hU
      exact ⟨by omega, by omega, fun hpos => hunset (by omega), fun _ => Or.inl hall⟩
  | first hall =>
      simp only [atPc, reduceCtorEq, if_false, if_true] at hT hS hC hU
      exact ⟨by omega, by omega, fun _ => hall, fun _ => Or.inr (by omega)⟩
  | set =>
      simp only [atPc, reduceCtorEq, if_false, if_true] at hT hS hC hU
      -- the flag was not set, since the thread that sets it is the only one that holds the lock
      have hfalse : g.allTasksFinished = false := hunset (by omega)
      rw [hfalse, Bool.toNat_false] at hcalls
      refine ⟨?_, ?_, fun hpos => ?_, fun _ => Or.inl rfl⟩
      · show _ ≤ g.finishLocked.toNat
        omega
      · show g.onFinishedCalls + _ = 1
        omega
      · omega
  | call =>
      simp only [atPc, reduceCtorEq, if_false, if_true] at hT hS hC hU
      refine ⟨?_, ?_, fun hpos => hunset (by omega), fun hlocked => (hheld hlocked).imp id (by omega)⟩
      · show _ ≤ g.finishLocked.toNat
        omega
      · show g.onFinishedCalls + 1 + _ = g.allTasksFinished.toNat
        omega
  | unlock =>
      simp only [atPc, reduceCtorEq, if_false, if_true] at hT hS hC hU
      refine ⟨?_, ?_, fun hpos => hunset (by omega), fun hlocked => absurd hlocked (by simp)⟩
      · show _ ≤ 0
        omega
      · show g.onFinishedCalls + _ = g.allTasksFinished.toNat
        omega
  | countHigh k => exact h.outside hi rfl (locks_return k) rfl rfl rfl
  | takeNone k => exact h.outside hi rfl (locks_return k) rfl rfl rfl
  | _ => exact h.outside hi rfl rfl rfl rfl rfl

theorem Announced.step {s t : System} {input : Input} (h : Announced s.shared s.locals)
    (hstep : threads.step s input = some t) : Announced t.shared t.locals := by
  obtain ⟨e, g, ps, -, he, rfl⟩ | ⟨i, c, p, g, q, -, hi, hnext, rfl⟩ := step_cases hstep
  · obtain ⟨hlock, hcalls, hunset, hheld⟩ := h
    have hsame : g.finishLocked = s.shared.finishLocked ∧ g.allTasksFinished = s.shared.allTasksFinished ∧
        g.onFinishedCalls = s.shared.onFinishedCalls ∧ ∀ pc, locks pc = true → count pc ps = 0 := by
      obtain ⟨task, -, rfl, rfl⟩ | ⟨-, rfl, rfl⟩ | ⟨j, task, -, hj, rfl, rfl⟩ := event_cases he
      · refine ⟨rfl, rfl, rfl, fun pc hpc => ?_⟩
        cases pc <;> simp_all [locks, count, atPc]
      · exact ⟨rfl, rfl, rfl, fun _ _ => rfl⟩
      · refine ⟨rfl, rfl, rfl, fun pc hpc => ?_⟩
        cases pc <;> simp_all [locks, count, atPc]
    obtain ⟨h1, h2, h3, hzero⟩ := hsame
    have happ : ∀ pc, locks pc = true → count pc (s.locals ++ ps) = count pc s.locals := by
      intro pc hpc
      have hz := hzero pc hpc
      simp only [count, total_append] at hz ⊢
      omega
    refine ⟨?_, ?_, ?_, ?_⟩
    · rw [happ _ rfl, happ _ rfl, happ _ rfl, happ _ rfl, h1]
      exact hlock
    · rw [happ _ rfl, h2, h3]
      exact hcalls
    · rw [happ _ rfl, h2]
      exact hunset
    · rw [happ _ rfl, happ _ rfl, h1, h2]
      exact hheld
  · exact h.next hi (next_cases hnext)

theorem Announced.calls_le_one (h : Announced g l) : g.onFinishedCalls ≤ 1 := by
  have := h.calls
  have := Bool.toNat_le g.allTasksFinished
  omega

end TaskLauncher
end Threads
end Hiaux
