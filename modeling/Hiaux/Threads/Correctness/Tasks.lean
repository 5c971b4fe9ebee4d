import Hiaux.Threads.Correctness.Pool

/-!
# `Threads.Correctness.Tasks` — every worker and every task has its place

A task passed to `hThreadPool::addTask` is, at any time, in exactly one place: with the call that is placing
it, in the shared queue or in the queue of one thread, with the thread that is executing it, or among the
tasks executed. Each step moves it from one of these to the next (`occurrences`), and only a call of
`addTask` brings a new one in. With the accounts of the threads (`Tokens`) this is all a run can do with
workers and tasks, whatever the interleaving and however often `kill` is called (`nothing_lost`).
-/

namespace Hiaux
namespace Threads
namespace HThreadPool

open Lib Lib.Threads

/-! ## Where a task is -/

/-- The call of `addTask` that is placing the task. -/
def inHands (f : Task) : PoolPc → Nat
  | .choosing f' => if f' = f then 1 else 0
  | .locking _ f' => if f' = f then 1 else 0
  | .pushing _ f' => if f' = f then 1 else 0
  | .sharing f' => if f' = f then 1 else 0
  | _ => 0

/-- The task in a thread's own queue. -/
def inLocalQueue (f : Task) (th : HThread) : Nat := th.localTaskQueue.count f

/-- The thread has taken the task and has not come to its end. -/
def executing (f : Task) (th : HThread) : Nat :=
  if th.pc = .runningLocal f ∨ th.pc = .runningShared f then 1 else 0

/-- How often a task is in a queue or in the hands of a call that is placing it. -/
def places (s : System) (f : Task) : Nat :=
  s.shared.taskQueue.count f + total (inLocalQueue f) s.shared.threads + total (inHands f) s.locals

/-- How often a task has been taken for execution. -/
def executions (s : System) (f : Task) : Nat :=
  total (executing f) s.shared.threads + s.shared.executed.count f

/-- How often a task is anywhere. -/
def occurrences (s : System) (f : Task) : Nat := places s f + executions s f

variable {g g' : HThreadPool} {l : List PoolPc} {i t : Nat} {p q : PoolPc} {th th' : HThread} {f : Task}

/-! ## What a step moves -/

/-- A thread goes on: what it holds besides stays. -/
theorem occurrences_setThread (hth : g.threads[t]? = some th)
    (hsame : inLocalQueue f th' + executing f th' = inLocalQueue f th + executing f th) :
    occurrences ⟨g.setThread t th', l⟩ f = occurrences ⟨g, l⟩ f := by
  have hqueue := total_set (inLocalQueue f) hth th'
  have hexec := total_set (executing f) hth th'
  simp only [occurrences, places, executions, setThread]
  omega

/-- A thread of the program goes on with the same task in its hands. -/
theorem occurrences_set (hi : l[i]? = some p) (hsame : inHands f q = inHands f p) :
    occurrences ⟨g, l.set i q⟩ f = occurrences ⟨g, l⟩ f := by
  have hset := total_set (inHands f) hi q
  simp only [occurrences, places, executions]
  omega

/-- `m_running` is no place for a task. -/
theorem total_perform (w : HThread → Nat) (hw : ∀ th b, w { th with running := b } = w th) (f' : Task) :
    total w (g.perform f').threads = total w g.threads := by
  cases f' with
  | user id => rfl
  | kill u =>
      simp only [HThreadPool.perform]
      split
      · rename_i thu hu
        have hset := total_set w hu { thu with running := false }
        rw [hw thu false] at hset
        exact Nat.add_right_cancel hset
      · rfl

theorem occurrences_perform (f' : Task) :
    occurrences ⟨g.perform f', l⟩ f = occurrences ⟨g, l⟩ f + if f' = f then 1 else 0 := by
  obtain ⟨hshared, -, -, -, hexecuted⟩ := perform_rest g f'
  simp only [occurrences, places, executions, hshared, hexecuted, List.count_append, List.count_singleton,
    total_perform (inLocalQueue f) (fun _ _ => rfl), total_perform (executing f) (fun _ _ => rfl),
    beq_iff_eq]
  omega

/-- A task has come to its end: the thread that executed it goes on. -/
theorem occurrences_ran (hth : g.threads[t]? = some th) {f' : Task} {pc : RunPc}
    (hpc : th.pc = .runningLocal f' ∨ th.pc = .runningShared f') (hdone : executing f { th with pc := pc } = 0) :
    occurrences ⟨(g.setThread t { th with pc := pc }).perform f', l⟩ f = occurrences ⟨g, l⟩ f := by
  have hqueue := total_set (inLocalQueue f) hth { th with pc := pc }
  have hexec := total_set (executing f) hth { th with pc := pc }
  have hself : executing f th = if f' = f then 1 else 0 := by
    rcases hpc with hpc | hpc <;> simp [executing, hpc]
  have hkeep : inLocalQueue f { th with pc := pc } = inLocalQueue f th := rfl
  rw [hself, hdone] at hexec
  rw [hkeep] at hqueue
  rw [occurrences_perform]
  simp only [occurrences, places, executions, setThread]
  omega

/-- **A step of a pool thread moves no task out of the account.** -/
theorem occurrences_run (hth : g.threads[t]? = some th) (hmove : RunMove g t th g') :
    occurrences ⟨g', l⟩ f = occurrences ⟨g, l⟩ f := by
  cases hmove with
  | start hpc => exact occurrences_setThread hth (by simp [inLocalQueue, executing, hpc])
  | enter hpc hrun => exact occurrences_setThread hth (by simp [inLocalQueue, executing, hpc])
  | leave hpc hrun =>
      refine occurrences_setThread hth ?_
      rcases hpc with hpc | hpc | hpc <;> simp [inLocalQueue, executing, hpc]
  | localEmpty hpc hnil => exact occurrences_setThread hth (by simp [inLocalQueue, executing, hpc])
  | takeLocal hpc hcons =>
      refine occurrences_setThread hth ?_
      simp [inLocalQueue, executing, hpc, hcons, List.count_cons]
  | ranLocal hpc => exact occurrences_ran hth (Or.inl hpc) (by simp [executing])
  | afterLocal hpc hrun => exact occurrences_setThread hth (by simp [inLocalQueue, executing, hpc])
  | sharedEmpty hpc hnil => exact occurrences_setThread hth (by simp [inLocalQueue, executing, hpc])
  | @takeShared f' rest hpc hcons =>
      have hqueue := total_set (inLocalQueue f) hth { th with pc := .runningShared f' }
      have hexec := total_set (executing f) hth { th with pc := .runningShared f' }
      have hself : executing f th = 0 := by simp [executing, hpc]
      have htaken : executing f { th with pc := .runningShared f' } = if f' = f then 1 else 0 := by
        simp [executing]
      have hkeep : inLocalQueue f { th with pc := .runningShared f' } = inLocalQueue f th := rfl
      rw [hself, htaken] at hexec
      rw [hkeep] at hqueue
      simp only [occurrences, places, executions, setThread, hcons, List.count_cons, beq_iff_eq]
      omega
  | ranShared hpc => exact occurrences_ran hth (Or.inr hpc) (by simp [executing])
  | afterShared hpc hrun => exact occurrences_setThread hth (by simp [inLocalQueue, executing, hpc])
  | list hpc => exact occurrences_setThread hth (by simp [inLocalQueue, executing, hpc])
  | lockWaiter hpc hfree => exact occurrences_setThread hth (by simp [inLocalQueue, executing, hpc])
  | queueEmpty hpc hnil => exact occurrences_setThread hth (by simp [inLocalQueue, executing, hpc])
  | queueNotEmpty hpc hne => exact occurrences_setThread hth (by simp [inLocalQueue, executing, hpc])
  | sleep hpc => exact occurrences_setThread hth (by simp [inLocalQueue, executing, hpc])
  | wake hpc hblocked hfree => exact occurrences_setThread hth (by simp [inLocalQueue, executing, hpc])
  | unlockWaiter hpc => exact occurrences_setThread hth (by simp [inLocalQueue, executing, hpc])
  | stop hpc => exact occurrences_setThread hth (by simp [inLocalQueue, executing, hpc])

/-- A flag of a thread is changed. -/
theorem occurrences_flag (hi : l[i]? = some p) (hth : g.threads[t]? = some th) (hpc : th'.pc = th.pc)
    (hqueue : th'.localTaskQueue = th.localTaskQueue) (hsame : inHands f q = inHands f p) :
    occurrences ⟨g.setThread t th', l.set i q⟩ f = occurrences ⟨g, l⟩ f := by
  have hthread : inLocalQueue f th' + executing f th' = inLocalQueue f th + executing f th := by
    simp only [inLocalQueue, executing, hpc, hqueue]
  rw [occurrences_set hi hsame, occurrences_setThread hth hthread]

/-- A caller puts a task into a thread's own queue. -/
theorem occurrences_push (hi : l[i]? = some p) (hth : g.threads[t]? = some th) (f' : Task)
    (hmoved : inHands f p = inHands f q + if f' = f then 1 else 0) :
    occurrences ⟨g.setThread t { th with localTaskQueue := th.localTaskQueue ++ [f'] }, l.set i q⟩ f =
      occurrences ⟨g, l⟩ f := by
  have hhands := total_set (inHands f) hi q
  have hqueue := total_set (inLocalQueue f) hth { th with localTaskQueue := th.localTaskQueue ++ [f'] }
  have hexec := total_set (executing f) hth { th with localTaskQueue := th.localTaskQueue ++ [f'] }
  have hkeep : executing f { th with localTaskQueue := th.localTaskQueue ++ [f'] } = executing f th := rfl
  have hput : inLocalQueue f { th with localTaskQueue := th.localTaskQueue ++ [f'] } =
      inLocalQueue f th + if f' = f then 1 else 0 := by
    simp [inLocalQueue, List.count_append, List.count_singleton]
  rw [hput] at hqueue
  rw [hkeep] at hexec
  simp only [occurrences, places, executions, setThread]
  omega

/-- **A step of any thread keeps the account of a task** passed to `addTask`. -/
theorem occurrences_next {id : Nat} (hi : l[i]? = some p) (htrans : Transition g p g' q) :
    occurrences ⟨g', l.set i q⟩ (.user id) = occurrences ⟨g, l⟩ (.user id) := by
  cases htrans with
  | run hth hmove => rw [occurrences_set hi rfl, occurrences_run hth hmove]
  | noneWaiting f hnil => exact occurrences_set hi rfl
  | choose f hcons => exact occurrences_set hi rfl
  | lock f hth hfree => exact occurrences_flag hi hth rfl rfl rfl
  | push f hth => exact occurrences_push hi hth f (by simp [inHands])
  | kick hth => exact occurrences_flag hi hth rfl rfl rfl
  | unlock hth => exact occurrences_flag hi hth rfl rfl rfl
  | share f =>
      have hhands := total_set (inHands (.user id)) hi .done
      have hput : inHands (.user id) (.sharing f) = if f = .user id then 1 else 0 := rfl
      have hdone : inHands (.user id) .done = 0 := rfl
      rw [hput, hdone] at hhands
      simp only [occurrences, places, executions, List.count_append, List.count_singleton, beq_iff_eq]
      omega
  | stillRunning hpos => exact occurrences_set hi rfl
  | noneRunning hzero => exact occurrences_set hi rfl
  | stop k hth => exact occurrences_flag hi hth rfl rfl rfl
  | stopped k hnone => exact occurrences_set hi rfl
  | drained k hnil => exact occurrences_set hi (by cases k <;> rfl)
  | drain k hcons => exact occurrences_set hi rfl
  | killPush k hth => exact occurrences_push hi hth _ (by simp [inHands])
  | killKick k hth => exact occurrences_flag hi hth rfl rfl rfl

/-! ## Every run -/

/-- Each task passed to `addTask` occurs once, and no other task does. -/
def Conserved (s : System) : Prop :=
  ∀ id, occurrences s (.user id) = if id < s.shared.accepted then 1 else 0

theorem accepted_perform (f : Task) : (g.perform f).accepted = g.accepted := (perform_rest g f).2.2.2.1

/-- Only a call of `addTask` brings a task in. -/
theorem accepted_next (htrans : Transition g p g' q) : g'.accepted = g.accepted := by
  cases htrans with
  | run hth hmove =>
      cases hmove with
      | ranLocal hpc => exact accepted_perform _
      | ranShared hpc => exact accepted_perform _
      | _ => rfl
  | _ => rfl

theorem Conserved.step {s s' : System} {input : Input} (h : Conserved s)
    (hstep : program.step s input = some s') : Conserved s' := by
  intro id
  have hid := h id
  obtain ⟨e, g, ps, rfl, he, rfl⟩ | ⟨i, c, p, g, q, rfl, hi, hnext, rfl⟩ := step_cases hstep
  · obtain ⟨rfl, rfl, rfl⟩ | ⟨rfl, rfl, rfl⟩ | ⟨rfl, rfl, rfl⟩ | ⟨t, th, rfl, hth, rfl, rfl⟩ := event_cases he
    · -- the new task is the one with the next number
      simp only [occurrences, places, executions, total_append, total_singleton, inHands, Task.user.injEq]
        at hid ⊢
      split_ifs at hid ⊢ <;> omega
    · simpa [occurrences, places, executions, inHands] using hid
    · simpa [occurrences, places, executions, inHands] using hid
    · rw [List.append_nil]
      have hsame : occurrences ⟨s.shared.setThread t { th with blocked := false }, s.locals⟩ (.user id) =
          occurrences s (.user id) := occurrences_setThread hth rfl
      rw [hsame]
      exact hid
  · rw [occurrences_next hi (next_cases hnext), accepted_next (next_cases hnext)]
    exact hid

theorem conserved_init (n : Nat) : Conserved (init n) := by
  intro id
  have hqueues : total (inLocalQueue (.user id)) (init n).shared.threads = 0 :=
    total_eq_zero fun th hth => by rw [List.eq_of_mem_replicate hth]; rfl
  have hexec : total (executing (.user id)) (init n).shared.threads = 0 :=
    total_eq_zero fun th hth => by rw [List.eq_of_mem_replicate hth]; rfl
  have hhands : total (inHands (.user id)) (init n).locals = 0 :=
    total_eq_zero fun p hp => by
      obtain ⟨u, -, rfl⟩ := List.mem_map.mp hp
      rfl
  simp only [occurrences, places, executions, hqueues, hexec, hhands]
  rfl

/-- **The pool loses no worker and no task, and executes no task twice.** In every state of every run, with
    any number of calls of `addTask`, `kill` and the destructor: no thread is listed twice, no thread's own
    queue holds two tasks, a listed thread's queue is empty, and a task passed to `addTask` is in exactly one
    queue or in the hands of the call that is placing it until it is taken for execution, which happens once. -/
theorem nothing_lost {n : Nat} {inputs : List Input} {s : System} (hrun : run n inputs = some s) :
    s.shared.waitingThreads.Nodup ∧
      (∀ th ∈ s.shared.threads, th.localTaskQueue.length ≤ 1) ∧
      (∀ t ∈ s.shared.waitingThreads, ∃ th, s.shared.threads[t]? = some th ∧ th.localTaskQueue = []) ∧
      ∀ id < s.shared.accepted, executions s (.user id) ≤ 1 ∧
        places s (.user id) + executions s (.user id) = 1 := by
  have htokens := Tokens.of_run hrun
  have hconserved : Conserved s := run_invariant Conserved Conserved.step (conserved_init n) hrun
  have hlisted : ∀ t ∈ s.shared.waitingThreads, ∃ th, s.shared.threads[t]? = some th ∧
      Token th.pc th.localTaskQueue (tally s.shared s.locals t) := by
    intro t ht
    have hth := List.getElem?_eq_getElem (htokens.known t ht)
    exact ⟨_, hth, htokens.token hth⟩
  refine ⟨?_, ?_, ?_, ?_⟩
  · rw [List.nodup_iff_count]
    intro t
    by_cases ht : t ∈ s.shared.waitingThreads
    · obtain ⟨th, -, htok⟩ := hlisted t ht
      have hone := htok.one
      simp only [tally] at hone
      omega
    · rw [List.count_eq_zero_of_not_mem ht]
      exact Nat.zero_le 1
  · intro th hth
    obtain ⟨t, hth⟩ := List.mem_iff_getElem?.mp hth
    exact (Nat.le_add_left _ _).trans (htokens.token hth).one
  · intro t ht
    obtain ⟨th, hth, htok⟩ := hlisted t ht
    have hone := htok.one
    have hcount := List.count_pos_iff.mpr ht
    simp only [tally] at hone
    exact ⟨th, hth, List.length_eq_zero_iff.mp (by omega)⟩
  · intro id hid
    have honce := hconserved id
    rw [if_pos hid] at honce
    exact ⟨honce ▸ Nat.le_add_left _ _, honce⟩

/-- A thread lists itself and blocks, and is given a task by a caller. -/
def handedOver : List Input :=
  List.replicate 10 (.thread 0 ()) ++ [.event .addTask] ++ List.replicate 5 (.thread 1 ()) ++
    List.replicate 6 (.thread 0 ())

theorem handedOver_executed : ∃ s, run 1 handedOver = some s ∧ s.shared.executed = [.user 0] ∧
    places s (.user 0) + executions s (.user 0) = 1 := by
  refine ⟨(run 1 handedOver).get (by decide), (Option.some_get _).symm, by decide, ?_⟩
  exact ((nothing_lost (Option.some_get (by decide)).symm).2.2.2 0 (by decide)).2

end HThreadPool
end Threads
end Hiaux
