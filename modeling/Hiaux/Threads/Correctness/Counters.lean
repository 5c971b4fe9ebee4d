import Hiaux.Threads.TaskLauncher

/-!
# `Threads.Correctness.Counters` — what the two counters say

The counters are 64-bit and wrap, so they do not give the number of launched and unfinished tasks, only
their difference does, modulo `2 ^ 64` (`Counted`). It is an invariant of every run: a task is counted as
launched in the step that makes it launched, and as finished in the step that makes it finished.
-/

namespace Hiaux
namespace Threads
namespace TaskLauncher

open Lib Lib.Threads

/-- The difference of the counters is the number of tasks launched and not finished. -/
def Counted (s : System) : Prop :=
  s.shared.tasksLaunched = s.shared.tasksFinished + UInt64.ofNat (launched s)

theorem counted_init (max : UInt64) : Counted (init max) := rfl

theorem launchedIn_return (k : Caller) : launchedIn k.return = launchedIn.unfinished k := by
  cases k <;> rfl

theorem poppedIn_return (k : Caller) : poppedIn k.return = 0 := by
  cases k <;> rfl

/-! ## What a step does -/

/-- The steps of an execution: what `next` does, one constructor for each of its branches. -/
inductive Transition (g : TaskLauncher) : Pc → TaskLauncher → Pc → Prop where
  | relaunch (task : Nat) : Transition g (.running task) g (.pushing .relaunch task)
  | noRelaunch (task : Nat) : Transition g (.running task) g .finishing
  | finish : Transition g .finishing { g with tasksFinished := g.tasksFinished + 1 }
      (.counting .task none none)
  | push (k : Caller) (task : Nat) : Transition g (.pushing k task) { g with taskQ := g.taskQ ++ [task] }
      (.counting k none none)
  | count {first : Counter} {l f l' f' : Option UInt64} (k : Caller) (hload : g.load first l f = (l', f')) :
      Transition g (.counting k l f) g (.counting k l' f')
  | countLow {first : Counter} {l f : Option UInt64} {l' f' : UInt64} (k : Caller)
      (hload : g.load first l f = (some l', some f')) (hlow : l' - f' < g.maxParallel) :
      Transition g (.counting k l f) g (.taking k)
  | countHigh {first : Counter} {l f : Option UInt64} {l' f' : UInt64} (k : Caller)
      (hload : g.load first l f = (some l', some f')) (hhigh : ¬ l' - f' < g.maxParallel) :
      Transition g (.counting k l f) g k.return
  | takeNone (k : Caller) (hnil : g.taskQ = []) : Transition g (.taking k) g k.return
  | take {task : Nat} {rest : List Nat} (k : Caller) (hcons : g.taskQ = task :: rest) :
      Transition g (.taking k) { g with taskQ := rest } (.launching k task)
  | launch (k : Caller) (task : Nat) : Transition g (.launching k task)
      { g with tasksLaunched := g.tasksLaunched + 1 } (.submitting k task)
  | submit (k : Caller) (task : Nat) : Transition g (.submitting k task)
      { g with pool := g.pool ++ [task] } (.counting k none none)
  | compare {first : Counter} {l f l' f' : Option UInt64} (hload : g.load first l f = (l', f')) :
      Transition g (.comparing l f) g (.comparing l' f')
  | compareEq {first : Counter} {l f : Option UInt64} {v : UInt64}
      (hload : g.load first l f = (some v, some v)) : Transition g (.comparing l f) g .testingNoMoreTasks
  | compareNe {first : Counter} {l f : Option UInt64} {l' f' : UInt64}
      (hload : g.load first l f = (some l', some f')) (hne : l' ≠ f') : Transition g (.comparing l f) g .done
  | noMore (hno : g.noMoreTasks = true) : Transition g .testingNoMoreTasks g .testingQueue
  | more (hno : g.noMoreTasks = false) : Transition g .testingNoMoreTasks g .done
  | empty (hnil : g.taskQ = []) : Transition g .testingQueue g .lockingFinish
  | nonempty (hne : g.taskQ ≠ []) : Transition g .testingQueue g .done
  | lock (hfree : g.finishLocked = false) : Transition g .lockingFinish { g with finishLocked := true }
      .testingAllFinished
  | busy (hlocked : g.finishLocked = true) : Transition g .lockingFinish g .done
  | first (hall : g.allTasksFinished = false) : Transition g .testingAllFinished g .settingAllFinished
  | again (hall : g.allTasksFinished = true) : Transition g .testingAllFinished g .done
  | set : Transition g .settingAllFinished { g with allTasksFinished := true } .callingOnFinished
  | call : Transition g .callingOnFinished { g with onFinishedCalls := g.onFinishedCalls + 1 }
      .unlockingFinish
  | unlock : Transition g .unlockingFinish { g with finishLocked := false } .done

theorem transition_countRunning (g : TaskLauncher) (first : Counter) (k : Caller) (l f : Option UInt64) :
    Transition g (.counting k l f) g (g.countRunning first k l f) := by
  unfold countRunning
  split
  · rename_i l' f' hload
    split
    · rename_i hlow
      exact .countLow k hload hlow
    · rename_i hhigh
      exact .countHigh k hload hhigh
  · rename_i l' f' hload
    exact .count k hload

theorem transition_compareCounters (g : TaskLauncher) (first : Counter) (l f : Option UInt64) :
    Transition g (.comparing l f) g (g.compareCounters first l f) := by
  unfold compareCounters
  split
  · rename_i l' f' hload
    split
    · rename_i heq
      subst heq
      exact .compareEq hload
    · rename_i hne
      exact .compareNe hload hne
  · rename_i l' f' hload
    exact .compare hload

/-- **Every step is one of these.** -/
theorem next_cases {g g' : TaskLauncher} {p q : Pc} {c : Choice} (h : g.next p c = some (g', q)) :
    Transition g p g' q := by
  cases p with
  | running task =>
      simp only [next] at h
      split at h
      · obtain ⟨rfl, rfl⟩ := Prod.mk.inj (Option.some.inj h)
        exact .relaunch task
      · obtain ⟨rfl, rfl⟩ := Prod.mk.inj (Option.some.inj h)
        exact .noRelaunch task
  | taking k =>
      simp only [next] at h
      split at h
      · rename_i hnil
        obtain ⟨rfl, rfl⟩ := Prod.mk.inj (Option.some.inj h)
        exact .takeNone k hnil
      · rename_i hcons
        obtain ⟨rfl, rfl⟩ := Prod.mk.inj (Option.some.inj h)
        exact .take k hcons
  | lockingFinish =>
      simp only [next] at h
      split at h
      · rename_i hlocked
        obtain ⟨rfl, rfl⟩ := Prod.mk.inj (Option.some.inj h)
        exact .busy hlocked
      · rename_i hfree
        obtain ⟨rfl, rfl⟩ := Prod.mk.inj (Option.some.inj h)
        exact .lock (Bool.eq_false_of_not_eq_true hfree)
  | done => exact absurd h (by simp [next])
  | pushing k task =>
      obtain ⟨rfl, rfl⟩ := Prod.mk.inj (Option.some.inj h)
      exact .push k task
  | counting k l f =>
      obtain ⟨rfl, rfl⟩ := Prod.mk.inj (Option.some.inj h)
      exact transition_countRunning g c.first k l f
  | launching k task =>
      obtain ⟨rfl, rfl⟩ := Prod.mk.inj (Option.some.inj h)
      exact .launch k task
  | submitting k task =>
      obtain ⟨rfl, rfl⟩ := Prod.mk.inj (Option.some.inj h)
      exact .submit k task
  | finishing =>
      obtain ⟨rfl, rfl⟩ := Prod.mk.inj (Option.some.inj h)
      exact .finish
  | comparing l f =>
      obtain ⟨rfl, rfl⟩ := Prod.mk.inj (Option.some.inj h)
      exact transition_compareCounters g c.first l f
  | testingNoMoreTasks =>
      obtain ⟨rfl, rfl⟩ := Prod.mk.inj (Option.some.inj h)
      split
      · rename_i hno
        exact .noMore hno
      · rename_i hno
        exact .more (Bool.eq_false_of_not_eq_true hno)
  | testingQueue =>
      obtain ⟨rfl, rfl⟩ := Prod.mk.inj (Option.some.inj h)
      split
      · rename_i hnil
        exact .empty hnil
      · rename_i hne
        exact .nonempty hne
  | testingAllFinished =>
      obtain ⟨rfl, rfl⟩ := Prod.mk.inj (Option.some.inj h)
      split
      · rename_i hall
        exact .again hall
      · rename_i hall
        exact .first (Bool.eq_false_of_not_eq_true hall)
  | settingAllFinished =>
      obtain ⟨rfl, rfl⟩ := Prod.mk.inj (Option.some.inj h)
      exact .set
  | callingOnFinished =>
      obtain ⟨rfl, rfl⟩ := Prod.mk.inj (Option.some.inj h)
      exact .call
  | unlockingFinish =>
      obtain ⟨rfl, rfl⟩ := Prod.mk.inj (Option.some.inj h)
      exact .unlock

/-- A step that leaves the tasks alone. -/
structure Still (g : TaskLauncher) (p : Pc) (g' : TaskLauncher) (q : Pc) : Prop where
  taskQ : g'.taskQ = g.taskQ
  tasksLaunched : g'.tasksLaunched = g.tasksLaunched
  tasksFinished : g'.tasksFinished = g.tasksFinished
  pool : g'.pool = g.pool
  launchedIn : launchedIn q = launchedIn p
  popped_after : poppedIn q = 0
  popped_before : poppedIn p = 0

/-- What a step does to the tasks: it pushes or pops one, counts it as launched or gives it to the pool,
    counts one as finished, or leaves them all where they are. -/
inductive Effect (g : TaskLauncher) : Pc → TaskLauncher → Pc → Prop where
  | push (k : Caller) (task : Nat) : Effect g (.pushing k task) { g with taskQ := g.taskQ ++ [task] }
      (.counting k none none)
  | pop {task : Nat} {rest : List Nat} (k : Caller) (hcons : g.taskQ = task :: rest) :
      Effect g (.taking k) { g with taskQ := rest } (.launching k task)
  | launch (k : Caller) (task : Nat) : Effect g (.launching k task)
      { g with tasksLaunched := g.tasksLaunched + 1 } (.submitting k task)
  | submit (k : Caller) (task : Nat) : Effect g (.submitting k task) { g with pool := g.pool ++ [task] }
      (.counting k none none)
  | finish : Effect g .finishing { g with tasksFinished := g.tasksFinished + 1 } (.counting .task none none)
  | still {p : Pc} {g' : TaskLauncher} {q : Pc} (h : Still g p g' q) : Effect g p g' q

theorem Transition.effect {g g' : TaskLauncher} {p q : Pc} (h : Transition g p g' q) : Effect g p g' q := by
  cases h with
  | push k task => exact .push k task
  | take k hcons => exact .pop k hcons
  | launch k task => exact .launch k task
  | submit k task => exact .submit k task
  | finish => exact .finish
  | countHigh k => exact .still ⟨rfl, rfl, rfl, rfl, launchedIn_return k, poppedIn_return k, rfl⟩
  | takeNone k => exact .still ⟨rfl, rfl, rfl, rfl, launchedIn_return k, poppedIn_return k, rfl⟩
  | _ => exact .still ⟨rfl, rfl, rfl, rfl, rfl, rfl, rfl⟩

theorem Transition.maxParallel {g g' : TaskLauncher} {p q : Pc} (h : Transition g p g' q) :
    g'.maxParallel = g.maxParallel := by
  cases h <;> rfl

theorem Transition.noMoreTasks {g g' : TaskLauncher} {p q : Pc} (h : Transition g p g' q) :
    g'.noMoreTasks = g.noMoreTasks := by
  cases h <;> rfl

/-- What an event does. -/
theorem event_cases {g g' : TaskLauncher} {e : Event} {ps : List Pc} (h : g.event e = some (g', ps)) :
    (∃ task, e = .addTask task ∧ g' = g ∧ ps = [.pushing .addTask task]) ∨
    (e = .setNoMoreTasks ∧ g' = { g with noMoreTasks := true } ∧ ps = []) ∨
    (∃ j task, e = .start j ∧ g.pool[j]? = some task ∧ g' = { g with pool := g.pool.eraseIdx j } ∧
      ps = [.running task]) := by
  cases e with
  | addTask task =>
      obtain ⟨rfl, rfl⟩ := Prod.mk.inj (Option.some.inj h)
      exact Or.inl ⟨task, rfl, rfl, rfl⟩
  | setNoMoreTasks =>
      obtain ⟨rfl, rfl⟩ := Prod.mk.inj (Option.some.inj h)
      exact Or.inr (Or.inl ⟨rfl, rfl, rfl⟩)
  | start j =>
      obtain ⟨task, hj, hr⟩ := Option.map_eq_some_iff.mp h
      obtain ⟨rfl, rfl⟩ := Prod.mk.inj hr
      exact Or.inr (Or.inr ⟨j, task, rfl, hj, rfl, rfl⟩)

/-! ## The counters -/

variable {g g' : TaskLauncher} {l : List Pc} {i : Nat} {p q : Pc}

/-- The tasks launched, before and after a step of one execution. -/
theorem launched_set (hi : l[i]? = some p) (g' : TaskLauncher) (q : Pc) :
    launched ⟨g', l.set i q⟩ + g.pool.length + launchedIn p =
      launched ⟨g, l⟩ + g'.pool.length + launchedIn q := by
  have htotal := total_set launchedIn hi q
  simp only [launched]
  omega

theorem popped_set (hi : l[i]? = some p) (g' : TaskLauncher) (q : Pc) :
    popped ⟨g', l.set i q⟩ + poppedIn p = popped ⟨g, l⟩ + poppedIn q := total_set poppedIn hi q

theorem Counted.next (h : Counted ⟨g, l⟩) (hi : l[i]? = some p) (heff : Effect g p g' q) :
    Counted ⟨g', l.set i q⟩ := by
  have hset := launched_set (g := g) hi g' q
  unfold Counted at h ⊢
  dsimp only at h ⊢
  have hkeep : g'.tasksLaunched = g.tasksLaunched → g'.tasksFinished = g.tasksFinished →
      launched ⟨g', l.set i q⟩ = launched ⟨g, l⟩ →
      g'.tasksLaunched = g'.tasksFinished + UInt64.ofNat (launched ⟨g', l.set i q⟩) := by
    intro hl hf heq
    rw [hl, hf, heq]
    exact h
  cases heff with
  | push k task =>
      refine hkeep rfl rfl ?_
      simp only [launchedIn] at hset
      omega
  | pop k hcons =>
      refine hkeep rfl rfl ?_
      simp only [launchedIn] at hset
      omega
  | launch k task =>
      have heq : launched ⟨{ g with tasksLaunched := g.tasksLaunched + 1 }, l.set i (.submitting k task)⟩ =
          launched ⟨g, l⟩ + 1 := by
        simp only [launchedIn] at hset
        omega
      rw [heq, UInt64.ofNat_add, ← UInt64.add_assoc, ← h]
      rfl
  | submit k task =>
      refine hkeep rfl rfl ?_
      simp only [launchedIn, List.length_append, List.length_singleton] at hset
      omega
  | finish =>
      have heq : launched ⟨g, l⟩ =
          launched ⟨{ g with tasksFinished := g.tasksFinished + 1 },
            l.set i (.counting .task none none)⟩ + 1 := by
        simp only [launchedIn, launchedIn.unfinished] at hset
        omega
      rw [h, heq, UInt64.ofNat_add, UInt64.add_assoc, UInt64.add_comm 1]
      rfl
  | still hstill =>
      refine hkeep hstill.tasksLaunched hstill.tasksFinished ?_
      rw [hstill.pool, hstill.launchedIn] at hset
      omega

theorem launched_start {g : TaskLauncher} {l : List Pc} {j task : Nat} (hj : g.pool[j]? = some task) :
    launched ⟨{ g with pool := g.pool.eraseIdx j }, l ++ [.running task]⟩ = launched ⟨g, l⟩ := by
  have hlt : j < g.pool.length := (List.getElem?_eq_some_iff.mp hj).1
  simp only [launched, total_append, total_singleton, launchedIn, List.length_eraseIdx_of_lt hlt]
  omega

theorem Counted.step {s t : System} {input : Input} (h : Counted s) (hstep : threads.step s input = some t) :
    Counted t := by
  obtain ⟨e, g, ps, -, he, rfl⟩ | ⟨i, c, p, g, q, -, hi, hnext, rfl⟩ := step_cases hstep
  · unfold Counted at h ⊢
    obtain ⟨task, -, rfl, rfl⟩ | ⟨-, rfl, rfl⟩ | ⟨j, task, -, hj, rfl, rfl⟩ := event_cases he
    · simpa [launched, launchedIn, launchedIn.unfinished] using h
    · simpa [launched] using h
    · rw [launched_start hj]
      exact h
  · exact h.next hi (next_cases hnext).effect

/-- With nothing launched, the counters agree. -/
theorem Counted.eq_of_none {s : System} (h : Counted s) (hnone : launched s = 0) :
    s.shared.tasksLaunched = s.shared.tasksFinished := by
  unfold Counted at h
  rw [hnone] at h
  exact h.trans (UInt64.add_zero _)

/-- Below `2 ^ 64` tasks, the difference of the counters is their number. -/
theorem Counted.sub_toNat {s : System} (h : Counted s) (hlt : launched s < 2 ^ 64) :
    (s.shared.tasksLaunched - s.shared.tasksFinished).toNat = launched s := by
  unfold Counted at h
  rw [h, UInt64.add_comm, UInt64.add_sub_cancel, UInt64.toNat_ofNat']
  exact Nat.mod_eq_of_lt hlt

end TaskLauncher
end Threads
end Hiaux
