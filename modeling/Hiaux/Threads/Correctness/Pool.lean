import Hiaux.Threads.ThreadPool

/-!
# `Threads.Correctness.Pool` — one place for a thread, one place for a task

A pool thread that is not awake is accounted for in exactly one place: it is listed in `waiting_threads`,
or a caller has taken it off the list and is about to give it a task, or its queue holds the task it was
given. `Token` states that account for each place the thread can be at. It holds in every state, with any
number of callers of `addTask`, `kill` and the destructor, because taking a thread off the list and giving
it a task each move the account by one, and only the thread itself opens it, when it lists itself with an
empty queue.

The account of the tasks is kept beside it: a task passed to `addTask` is with its caller, in one queue, or
taken for execution (`placed`).
-/

namespace Hiaux
namespace Threads

/-- Whether a thread is awake: it has not listed itself since it was last given a task. -/
def RunPc.awake : RunPc → Bool
  | .lockingWaiter => false
  | .testingQueue => false
  | .sleeping => false
  | .asleep => false
  | _ => true

/-- Whether a thread has found its own queue empty and not listed itself since. -/
def RunPc.drained : RunPc → Bool
  | .testingAfterLocal => true
  | .takingShared => true
  | .runningShared _ => true
  | .testingAfterShared => true
  | .listing => true
  | _ => false

theorem RunPc.awake_of_drained {pc : RunPc} (h : pc.drained = true) : pc.awake = true := by
  cases pc <;> first | rfl | exact absurd h Bool.false_ne_true

namespace HThreadPool

open Lib Lib.Threads

/-! ## What a step does -/

/-- The steps of `hThread::run`: what `runStep` does, one constructor for each of its branches. -/
inductive RunMove (g : HThreadPool) (t : Nat) (th : HThread) : HThreadPool → Prop where
  | start (hpc : th.pc = .starting) : RunMove g t th
      { g.setThread t { th with pc := .testingRunning } with nrunningThreads := g.nrunningThreads + 1 }
  | enter (hpc : th.pc = .testingRunning) (hrun : th.running = true) :
      RunMove g t th (g.setThread t { th with pc := .takingLocal })
  | leave (hpc : th.pc = .testingRunning ∨ th.pc = .testingAfterLocal ∨ th.pc = .testingAfterShared)
      (hrun : th.running = false) : RunMove g t th (g.setThread t { th with pc := .leaving })
  | localEmpty (hpc : th.pc = .takingLocal) (hnil : th.localTaskQueue = []) :
      RunMove g t th (g.setThread t { th with pc := .testingAfterLocal })
  | takeLocal {f : Task} {rest : List Task} (hpc : th.pc = .takingLocal)
      (hcons : th.localTaskQueue = f :: rest) :
      RunMove g t th (g.setThread t { th with localTaskQueue := rest, pc := .runningLocal f })
  | ranLocal {f : Task} (hpc : th.pc = .runningLocal f) :
      RunMove g t th ((g.setThread t { th with pc := .takingLocal }).perform f)
  | afterLocal (hpc : th.pc = .testingAfterLocal) (hrun : th.running = true) :
      RunMove g t th (g.setThread t { th with pc := .takingShared })
  | sharedEmpty (hpc : th.pc = .takingShared) (hnil : g.taskQueue = []) :
      RunMove g t th (g.setThread t { th with pc := .testingAfterShared })
  | takeShared {f : Task} {rest : List Task} (hpc : th.pc = .takingShared) (hcons : g.taskQueue = f :: rest) :
      RunMove g t th { g.setThread t { th with pc := .runningShared f } with taskQueue := rest }
  | ranShared {f : Task} (hpc : th.pc = .runningShared f) :
      RunMove g t th ((g.setThread t { th with pc := .takingShared }).perform f)
  | afterShared (hpc : th.pc = .testingAfterShared) (hrun : th.running = true) :
      RunMove g t th (g.setThread t { th with pc := .listing })
  | list (hpc : th.pc = .listing) : RunMove g t th
      { g.setThread t { th with pc := .lockingWaiter } with waitingThreads := g.waitingThreads ++ [t] }
  | lockWaiter (hpc : th.pc = .lockingWaiter) (hfree : th.locked = false) :
      RunMove g t th (g.setThread t { th with locked := true, pc := .testingQueue })
  | queueEmpty (hpc : th.pc = .testingQueue) (hnil : th.localTaskQueue = []) :
      RunMove g t th (g.setThread t { th with pc := .sleeping })
  | queueNotEmpty (hpc : th.pc = .testingQueue) (hne : th.localTaskQueue ≠ []) :
      RunMove g t th (g.setThread t { th with pc := .unlockingWaiter })
  | sleep (hpc : th.pc = .sleeping) :
      RunMove g t th (g.setThread t { th with locked := false, blocked := true, pc := .asleep })
  | wake (hpc : th.pc = .asleep) (hblocked : th.blocked = false) (hfree : th.locked = false) :
      RunMove g t th (g.setThread t { th with locked := true, pc := .testingQueue })
  | unlockWaiter (hpc : th.pc = .unlockingWaiter) :
      RunMove g t th (g.setThread t { th with locked := false, pc := .testingRunning })
  | stop (hpc : th.pc = .leaving) : RunMove g t th
      { g.setThread t { th with pc := .stopped } with nrunningThreads := g.nrunningThreads - 1 }

theorem runStep_cases {g g' : HThreadPool} {t : Nat} {th : HThread} (h : g.runStep t th = some g') :
    RunMove g t th g' := by
  unfold runStep at h
  dsimp only at h
  split at h
  · rename_i hpc
    exact Option.some.inj h ▸ .start hpc
  · rename_i hpc
    split at h
    · rename_i hrun
      exact Option.some.inj h ▸ .enter hpc hrun
    · rename_i hrun
      exact Option.some.inj h ▸ .leave (Or.inl hpc) (Bool.eq_false_of_not_eq_true hrun)
  · rename_i hpc
    split at h
    · rename_i hnil
      exact Option.some.inj h ▸ .localEmpty hpc hnil
    · rename_i hcons
      exact Option.some.inj h ▸ .takeLocal hpc hcons
  · rename_i hpc
    exact Option.some.inj h ▸ .ranLocal hpc
  · rename_i hpc
    split at h
    · rename_i hrun
      exact Option.some.inj h ▸ .afterLocal hpc hrun
    · rename_i hrun
      exact Option.some.inj h ▸ .leave (Or.inr (Or.inl hpc)) (Bool.eq_false_of_not_eq_true hrun)
  · rename_i hpc
    split at h
    · rename_i hnil
      exact Option.some.inj h ▸ .sharedEmpty hpc hnil
    · rename_i hcons
      exact Option.some.inj h ▸ .takeShared hpc hcons
  · rename_i hpc
    exact Option.some.inj h ▸ .ranShared hpc
  · rename_i hpc
    split at h
    · rename_i hrun
      exact Option.some.inj h ▸ .afterShared hpc hrun
    · rename_i hrun
      exact Option.some.inj h ▸ .leave (Or.inr (Or.inr hpc)) (Bool.eq_false_of_not_eq_true hrun)
  · rename_i hpc
    exact Option.some.inj h ▸ .list hpc
  · rename_i hpc
    split at h
    · exact absurd h (by simp)
    · rename_i hlocked
      exact Option.some.inj h ▸ .lockWaiter hpc (Bool.eq_false_of_not_eq_true hlocked)
  · rename_i hpc
    split at h
    · rename_i hnil
      exact Option.some.inj h ▸ .queueEmpty hpc hnil
    · rename_i hne
      exact Option.some.inj h ▸ .queueNotEmpty hpc hne
  · rename_i hpc
    exact Option.some.inj h ▸ .sleep hpc
  · rename_i hpc
    split at h
    · exact absurd h (by simp)
    · rename_i hfree
      rw [Bool.not_eq_true, Bool.or_eq_false_iff] at hfree
      exact Option.some.inj h ▸ .wake hpc hfree.1 hfree.2
  · rename_i hpc
    exact Option.some.inj h ▸ .unlockWaiter hpc
  · rename_i hpc
    exact Option.some.inj h ▸ .stop hpc
  · exact absurd h (by simp)

/-- The steps of all threads, one constructor for each branch of `next`. -/
inductive Transition (g : HThreadPool) : PoolPc → HThreadPool → PoolPc → Prop where
  | run {t : Nat} {th : HThread} {g' : HThreadPool} (hth : g.threads[t]? = some th)
      (hmove : RunMove g t th g') : Transition g (.worker t) g' (.worker t)
  | noneWaiting (f : Task) (hnil : g.waitingThreads = []) : Transition g (.choosing f) g (.sharing f)
  | choose {t : Nat} {rest : List Nat} (f : Task) (hcons : g.waitingThreads = t :: rest) :
      Transition g (.choosing f) { g with waitingThreads := rest } (.locking t f)
  | lock {t : Nat} {th : HThread} (f : Task) (hth : g.threads[t]? = some th) (hfree : th.locked = false) :
      Transition g (.locking t f) (g.setThread t { th with locked := true }) (.pushing t f)
  | push {t : Nat} {th : HThread} (f : Task) (hth : g.threads[t]? = some th) :
      Transition g (.pushing t f) (g.setThread t { th with localTaskQueue := th.localTaskQueue ++ [f] })
        (.kicking t)
  | kick {t : Nat} {th : HThread} (hth : g.threads[t]? = some th) :
      Transition g (.kicking t) (g.setThread t { th with blocked := false }) (.unlocking t)
  | unlock {t : Nat} {th : HThread} (hth : g.threads[t]? = some th) :
      Transition g (.unlocking t) (g.setThread t { th with locked := false }) .done
  | share (f : Task) : Transition g (.sharing f) { g with taskQueue := g.taskQueue ++ [f] } .done
  | stillRunning (hpos : 0 < g.nrunningThreads) : Transition g .testingNrunning g (.stopping .destructor 0)
  | noneRunning (hzero : ¬ 0 < g.nrunningThreads) : Transition g .testingNrunning g .done
  | stop {i : Nat} {th : HThread} (k : Killer) (hth : g.threads[i]? = some th) :
      Transition g (.stopping k i) (g.setThread i { th with running := false }) (.stopping k (i + 1))
  | stopped {i : Nat} (k : Killer) (hnone : g.threads[i]? = none) :
      Transition g (.stopping k i) g (.draining k)
  | drained (k : Killer) (hnil : g.waitingThreads = []) : Transition g (.draining k) g (afterKill k)
  | drain {t : Nat} {rest : List Nat} (k : Killer) (hcons : g.waitingThreads = t :: rest) :
      Transition g (.draining k) { g with waitingThreads := rest } (.killPushing k t)
  | killPush {t : Nat} {th : HThread} (k : Killer) (hth : g.threads[t]? = some th) :
      Transition g (.killPushing k t)
        (g.setThread t { th with localTaskQueue := th.localTaskQueue ++ [.kill t] }) (.killKicking k t)
  | killKick {t : Nat} {th : HThread} (k : Killer) (hth : g.threads[t]? = some th) :
      Transition g (.killKicking k t) (g.setThread t { th with blocked := false }) (.draining k)

/-- **Every step is one of these.** -/
theorem next_cases {g g' : HThreadPool} {p q : PoolPc} (h : g.next p () = some (g', q)) :
    Transition g p g' q := by
  cases p with
  | worker t =>
      obtain ⟨th, hth, h⟩ := Option.bind_eq_some_iff.mp h
      obtain ⟨g₁, hrun, h⟩ := Option.map_eq_some_iff.mp h
      obtain ⟨rfl, rfl⟩ := Prod.mk.inj h
      exact .run hth (runStep_cases hrun)
  | choosing f =>
      simp only [next] at h
      split at h
      · rename_i hnil
        obtain ⟨rfl, rfl⟩ := Prod.mk.inj (Option.some.inj h)
        exact .noneWaiting f hnil
      · rename_i hcons
        obtain ⟨rfl, rfl⟩ := Prod.mk.inj (Option.some.inj h)
        exact .choose f hcons
  | locking t f =>
      obtain ⟨th, hth, h⟩ := Option.bind_eq_some_iff.mp h
      split at h
      · exact absurd h (by simp)
      · rename_i hlocked
        obtain ⟨rfl, rfl⟩ := Prod.mk.inj (Option.some.inj h)
        exact .lock f hth (Bool.eq_false_of_not_eq_true hlocked)
  | pushing t f =>
      obtain ⟨th, hth, h⟩ := Option.map_eq_some_iff.mp h
      obtain ⟨rfl, rfl⟩ := Prod.mk.inj h
      exact .push f hth
  | kicking t =>
      obtain ⟨th, hth, h⟩ := Option.map_eq_some_iff.mp h
      obtain ⟨rfl, rfl⟩ := Prod.mk.inj h
      exact .kick hth
  | unlocking t =>
      obtain ⟨th, hth, h⟩ := Option.map_eq_some_iff.mp h
      obtain ⟨rfl, rfl⟩ := Prod.mk.inj h
      exact .unlock hth
  | sharing f =>
      obtain ⟨rfl, rfl⟩ := Prod.mk.inj (Option.some.inj h)
      exact .share f
  | testingNrunning =>
      obtain ⟨rfl, rfl⟩ := Prod.mk.inj (Option.some.inj h)
      split
      · rename_i hpos
        exact .stillRunning hpos
      · rename_i hzero
        exact .noneRunning hzero
  | stopping k i =>
      simp only [next] at h
      split at h
      · rename_i th hth
        obtain ⟨rfl, rfl⟩ := Prod.mk.inj (Option.some.inj h)
        exact .stop k hth
      · rename_i hnone
        obtain ⟨rfl, rfl⟩ := Prod.mk.inj (Option.some.inj h)
        exact .stopped k hnone
  | draining k =>
      simp only [next] at h
      split at h
      · rename_i hnil
        obtain ⟨rfl, rfl⟩ := Prod.mk.inj (Option.some.inj h)
        exact .drained k hnil
      · rename_i hcons
        obtain ⟨rfl, rfl⟩ := Prod.mk.inj (Option.some.inj h)
        exact .drain k hcons
  | killPushing k t =>
      obtain ⟨th, hth, h⟩ := Option.map_eq_some_iff.mp h
      obtain ⟨rfl, rfl⟩ := Prod.mk.inj h
      exact .killPush k hth
  | killKicking k t =>
      obtain ⟨th, hth, h⟩ := Option.map_eq_some_iff.mp h
      obtain ⟨rfl, rfl⟩ := Prod.mk.inj h
      exact .killKick k hth
  | done => exact absurd h (by simp [next])

/-- What an event does. -/
theorem event_cases {g g' : HThreadPool} {e : Event} {ps : List PoolPc} (h : g.event e = some (g', ps)) :
    (e = .addTask ∧ g' = { g with accepted := g.accepted + 1 } ∧ ps = [.choosing (.user g.accepted)]) ∨
    (e = .kill ∧ g' = g ∧ ps = [.stopping .user 0]) ∨
    (e = .destroy ∧ g' = g ∧ ps = [.testingNrunning]) ∨
    (∃ t th, e = .wake t ∧ g.threads[t]? = some th ∧ g' = g.setThread t { th with blocked := false } ∧
      ps = []) := by
  cases e with
  | addTask =>
      obtain ⟨rfl, rfl⟩ := Prod.mk.inj (Option.some.inj h)
      exact Or.inl ⟨rfl, rfl, rfl⟩
  | kill =>
      obtain ⟨rfl, rfl⟩ := Prod.mk.inj (Option.some.inj h)
      exact Or.inr (Or.inl ⟨rfl, rfl, rfl⟩)
  | destroy =>
      obtain ⟨rfl, rfl⟩ := Prod.mk.inj (Option.some.inj h)
      exact Or.inr (Or.inr (Or.inl ⟨rfl, rfl, rfl⟩))
  | wake t =>
      obtain ⟨th, hth, h⟩ := Option.map_eq_some_iff.mp h
      obtain ⟨rfl, rfl⟩ := Prod.mk.inj h
      exact Or.inr (Or.inr (Or.inr ⟨t, th, rfl, hth, rfl, rfl⟩))

/-! ## The account of a thread -/

/-- The thread was taken off the list and will be given a task by this caller. -/
def picks (t : Nat) : PoolPc → Nat
  | .locking u _ => if u = t then 1 else 0
  | .pushing u _ => if u = t then 1 else 0
  | .killPushing _ u => if u = t then 1 else 0
  | _ => 0

/-- How often a thread is listed, or off the list and not yet given a task. -/
def tally (g : HThreadPool) (l : List PoolPc) (t : Nat) : Nat :=
  g.waitingThreads.count t + total (picks t) l

/-- The account of a thread at a place, with a queue and a tally. -/
structure Token (pc : RunPc) (queue : List Task) (tally : Nat) : Prop where
  one : tally + queue.length ≤ 1
  awake : pc.awake = true → tally = 0
  drained : pc.drained = true → queue = []
  waiting : pc.awake = false → tally + queue.length = 1

/-- The account of every thread. -/
structure Tokens (g : HThreadPool) (l : List PoolPc) : Prop where
  known : ∀ t ∈ g.waitingThreads, t < g.threads.length
  token : ∀ {t th}, g.threads[t]? = some th → Token th.pc th.localTaskQueue (tally g l t)

variable {g g' : HThreadPool} {l l' : List PoolPc} {i t : Nat} {p q : PoolPc} {th th' : HThread}

theorem lt_of_thread (hth : g.threads[t]? = some th) : t < g.threads.length :=
  (List.getElem?_eq_some_iff.mp hth).1

@[simp] theorem length_setThread : (g.setThread t th).threads.length = g.threads.length :=
  List.length_set

/-- A step changes one thread; the others keep their tally. -/
theorem Tokens.change (h : Tokens g l) (hthreads : g'.threads = g.threads.set t th')
    (hknown : ∀ u ∈ g'.waitingThreads, u < g.threads.length)
    (hother : ∀ u, u ≠ t → tally g' l' u = tally g l u)
    (htoken : Token th'.pc th'.localTaskQueue (tally g' l' t)) : Tokens g' l' := by
  refine ⟨?_, ?_⟩
  · rw [hthreads, List.length_set]
    exact hknown
  · intro u thu hu
    rw [hthreads] at hu
    rcases getElem?_set_cases hu with ⟨rfl, rfl⟩ | ⟨hne, hu⟩
    · exact htoken
    · rw [hother u hne]
      exact h.token hu

/-- A step that leaves places, queues and tallies as they are. -/
theorem Tokens.same (h : Tokens g l) (hknown : ∀ u ∈ g'.waitingThreads, u < g'.threads.length)
    (hsame : ∀ {u : Nat} {thu : HThread}, g'.threads[u]? = some thu → ∃ thu' : HThread,
      g.threads[u]? = some thu' ∧ thu.pc = thu'.pc ∧ thu.localTaskQueue = thu'.localTaskQueue)
    (htally : ∀ u, tally g' l' u = tally g l u) : Tokens g' l' := by
  refine ⟨hknown, fun {u thu} hu => ?_⟩
  obtain ⟨thu', hu', hpc, hqueue⟩ := hsame hu
  rw [hpc, hqueue, htally]
  exact h.token hu'

/-- `(*f)()` changes no more than one thread's `m_running`. -/
theorem perform_threads (g : HThreadPool) (f : Task) {u : Nat} {thu : HThread}
    (h : (g.perform f).threads[u]? = some thu) :
    ∃ thu', g.threads[u]? = some thu' ∧ thu = { thu' with running := thu.running } := by
  cases f with
  | user id => exact ⟨thu, h, rfl⟩
  | kill t =>
      simp only [HThreadPool.perform] at h
      split at h
      · rename_i th hth
        rcases getElem?_set_cases h with ⟨rfl, rfl⟩ | ⟨-, h⟩
        · exact ⟨th, hth, rfl⟩
        · exact ⟨thu, h, rfl⟩
      · exact ⟨thu, h, rfl⟩

/-- The rest of the pool is not changed by `(*f)()`. -/
theorem perform_rest (g : HThreadPool) (f : Task) :
    (g.perform f).taskQueue = g.taskQueue ∧ (g.perform f).waitingThreads = g.waitingThreads ∧
      (g.perform f).threads.length = g.threads.length ∧ (g.perform f).accepted = g.accepted ∧
      (g.perform f).executed = g.executed ++ [f] := by
  cases f with
  | user id => exact ⟨rfl, rfl, rfl, rfl, rfl⟩
  | kill t =>
      simp only [HThreadPool.perform]
      split
      · exact ⟨rfl, rfl, length_setThread, rfl, rfl⟩
      · exact ⟨rfl, rfl, rfl, rfl, rfl⟩

theorem Tokens.perform (h : Tokens g l) (f : Task) : Tokens (g.perform f) l := by
  obtain ⟨-, hwaiting, hlength, -, -⟩ := perform_rest g f
  refine h.same ?_ ?_ ?_
  · rw [hwaiting, hlength]
    exact h.known
  · intro u thu hu
    obtain ⟨thu', hu', heq⟩ := perform_threads g f hu
    exact ⟨thu', hu', by rw [heq], by rw [heq]⟩
  · intro u
    simp only [tally, hwaiting]

/-- A thread goes on without touching the list or its queue. -/
theorem Tokens.goto (h : Tokens g l) (hth : g.threads[t]? = some th)
    (hqueue : th'.localTaskQueue = th.localTaskQueue)
    (htoken : ∀ n, Token th.pc th.localTaskQueue n → Token th'.pc th.localTaskQueue n) :
    Tokens (g.setThread t th') l := by
  refine h.change rfl h.known (fun _ _ => rfl) ?_
  rw [hqueue]
  exact htoken _ (h.token hth)

/-- From one place at which it is awake to another. -/
theorem Tokens.goto_awake (h : Tokens g l) (hth : g.threads[t]? = some th) {pc : RunPc} (hpc : th.pc = pc)
    (hqueue : th'.localTaskQueue = th.localTaskQueue) (hawake : pc.awake = true) (hawake' : th'.pc.awake = true)
    (hdrained : th'.pc.drained = true → pc.drained = true ∨ th.localTaskQueue = []) :
    Tokens (g.setThread t th') l := by
  subst hpc
  refine h.goto hth hqueue fun n ht => ⟨ht.one, fun _ => ht.awake hawake, fun hd => ?_, fun hw => ?_⟩
  · rcases hdrained hd with hd | hnil
    · exact ht.drained hd
    · exact hnil
  · exact absurd (hawake'.symm.trans hw) (by simp)

/-- From one place in `wait` to another. -/
theorem Tokens.goto_waiting (h : Tokens g l) (hth : g.threads[t]? = some th) {pc : RunPc} (hpc : th.pc = pc)
    (hqueue : th'.localTaskQueue = th.localTaskQueue) (hwaits : pc.awake = false)
    (hwaits' : th'.pc.awake = false) : Tokens (g.setThread t th') l := by
  subst hpc
  refine h.goto hth hqueue fun n ht => ⟨ht.one, fun ha => ?_, fun hd => ?_, fun _ => ht.waiting hwaits⟩
  · exact absurd (hwaits'.symm.trans ha) (by simp)
  · exact absurd (hwaits'.symm.trans (RunPc.awake_of_drained hd)) (by simp)

/-- **A step of a pool thread keeps the accounts.** -/
theorem Tokens.run (h : Tokens g l) (hth : g.threads[t]? = some th) (hmove : RunMove g t th g') :
    Tokens g' l := by
  have htok := h.token hth
  have hnot : ∀ {P : Prop}, false = true → P := fun hfalse => absurd hfalse Bool.false_ne_true
  cases hmove with
  | start hpc =>
      have hgo : Tokens (g.setThread t { th with pc := .testingRunning }) l :=
        h.goto_awake hth hpc rfl rfl rfl hnot
      exact ⟨hgo.known, hgo.token⟩
  | enter hpc => exact h.goto_awake hth hpc rfl rfl rfl hnot
  | leave hpc => rcases hpc with hpc | hpc | hpc <;> exact h.goto_awake hth hpc rfl rfl rfl hnot
  | localEmpty hpc hnil => exact h.goto_awake hth hpc rfl rfl rfl fun _ => Or.inr hnil
  | @takeLocal f rest hpc hcons =>
      refine h.change rfl h.known (fun _ _ => rfl) ?_
      have hzero := htok.awake (by rw [hpc]; rfl)
      have hone := htok.one
      rw [hcons, List.length_cons] at hone
      have hone' : tally g l t + rest.length ≤ 1 := by omega
      exact ⟨hone', fun _ => hzero, fun hd => absurd hd Bool.false_ne_true,
        fun hw => absurd hw.symm Bool.false_ne_true⟩
  | ranLocal hpc =>
      have hgo : Tokens (g.setThread t { th with pc := .takingLocal }) l := h.goto_awake hth hpc rfl rfl rfl hnot
      exact hgo.perform _
  | afterLocal hpc => exact h.goto_awake hth hpc rfl rfl rfl fun _ => Or.inl rfl
  | sharedEmpty hpc => exact h.goto_awake hth hpc rfl rfl rfl fun _ => Or.inl rfl
  | @takeShared f rest hpc =>
      have hgo : Tokens (g.setThread t { th with pc := .runningShared f }) l :=
        h.goto_awake hth hpc rfl rfl rfl fun _ => Or.inl rfl
      exact ⟨hgo.known, hgo.token⟩
  | ranShared hpc =>
      have hgo : Tokens (g.setThread t { th with pc := .takingShared }) l :=
        h.goto_awake hth hpc rfl rfl rfl fun _ => Or.inl rfl
      exact hgo.perform _
  | afterShared hpc => exact h.goto_awake hth hpc rfl rfl rfl fun _ => Or.inl rfl
  | list hpc =>
      -- the thread opens its account: it lists itself with an empty queue
      have hzero := htok.awake (by rw [hpc]; rfl)
      have hnil := htok.drained (by rw [hpc]; rfl)
      refine h.change rfl ?_ ?_ ?_
      · intro u hu
        rcases List.mem_append.mp hu with hu | hu
        · exact h.known u hu
        · rw [List.mem_singleton.mp hu]
          exact lt_of_thread hth
      · intro u hne
        simp only [tally, List.count_append, List.count_singleton]
        rw [if_neg (by simpa using Ne.symm hne)]
        rfl
      · have htally : tally { g.setThread t { th with pc := .lockingWaiter } with
            waitingThreads := g.waitingThreads ++ [t] } l t = 1 := by
          simp only [tally, List.count_append, List.count_singleton_self] at hzero ⊢
          omega
        rw [htally]
        show Token .lockingWaiter th.localTaskQueue 1
        rw [hnil]
        exact ⟨by simp, fun ha => absurd ha (by simp [RunPc.awake]),
          fun hd => absurd hd (by simp [RunPc.drained]), fun _ => rfl⟩
  | lockWaiter hpc => exact h.goto_waiting hth hpc rfl rfl rfl
  | queueEmpty hpc => exact h.goto_waiting hth hpc rfl rfl rfl
  | queueNotEmpty hpc hne =>
      -- the account is closed: the task is in the queue
      refine h.goto hth rfl fun n ht => ?_
      have hone := ht.one
      have hpos := List.length_pos_iff.mpr hne
      exact ⟨hone, fun _ => by omega, fun hd => absurd hd (by simp [RunPc.drained]),
        fun hw => absurd hw (by simp [RunPc.awake])⟩
  | sleep hpc => exact h.goto_waiting hth hpc rfl rfl rfl
  | wake hpc => exact h.goto_waiting hth hpc rfl rfl rfl
  | unlockWaiter hpc => exact h.goto_awake hth hpc rfl rfl rfl hnot
  | stop hpc =>
      have hgo : Tokens (g.setThread t { th with pc := .stopped }) l := h.goto_awake hth hpc rfl rfl rfl hnot
      exact ⟨hgo.known, hgo.token⟩

/-- A thread of the program that goes on without taking a pool thread off the list or giving it a task. -/
theorem Tokens.set (h : Tokens g l) (hi : l[i]? = some p) (hpicks : ∀ u, picks u q = picks u p) :
    Tokens g (l.set i q) := by
  refine h.same h.known (fun {u thu} hu => ⟨thu, hu, rfl, rfl⟩) ?_
  intro u
  have hset := total_set (picks u) hi q
  rw [hpicks u] at hset
  simp only [tally]
  omega

/-- A caller takes a thread off the list. -/
theorem Tokens.pick {rest : List Nat} (h : Tokens g l) (hi : l[i]? = some p)
    (hcons : g.waitingThreads = t :: rest) (hp : ∀ u, picks u p = 0)
    (hq : ∀ u, picks u q = if t = u then 1 else 0) :
    Tokens { g with waitingThreads := rest } (l.set i q) := by
  refine h.same ?_ (fun {u thu} hu => ⟨thu, hu, rfl, rfl⟩) ?_
  · intro u hu
    exact h.known u (hcons ▸ List.mem_cons_of_mem t hu)
  · intro u
    have hset := total_set (picks u) hi q
    rw [hp u, hq u] at hset
    simp only [tally, hcons, List.count_cons, beq_iff_eq]
    omega

/-- A caller gives the thread it took off the list a task: the account moves to the queue. -/
theorem Tokens.give (f : Task) (h : Tokens g l) (hi : l[i]? = some p) (hth : g.threads[t]? = some th)
    (hp : ∀ u, picks u p = if t = u then 1 else 0) (hq : ∀ u, picks u q = 0) :
    Tokens (g.setThread t { th with localTaskQueue := th.localTaskQueue ++ [f] }) (l.set i q) := by
  have htok := h.token hth
  have hset := fun u => total_set (picks u) hi q
  simp only [hp, hq] at hset
  refine h.change rfl h.known ?_ ?_
  · intro u hne
    have hsetu := hset u
    rw [if_neg (Ne.symm hne)] at hsetu
    show g.waitingThreads.count u + total (picks u) (l.set i q) = tally g l u
    simp only [tally]
    omega
  · have hsett := hset t
    rw [if_pos rfl] at hsett
    have htally : tally g l t = tally (g.setThread t
        { th with localTaskQueue := th.localTaskQueue ++ [f] }) (l.set i q) t + 1 := by
      show g.waitingThreads.count t + total (picks t) l = g.waitingThreads.count t + total (picks t) (l.set i q) + 1
      omega
    have hasleep : th.pc.awake = false := by
      cases hawake : th.pc.awake with
      | false => rfl
      | true => exact absurd (htok.awake hawake) (by omega)
    have hone := htok.one
    have hwaiting := htok.waiting hasleep
    refine ⟨?_, ?_, ?_, ?_⟩
    · simp only [List.length_append, List.length_singleton]
      omega
    · intro ha
      exact absurd (hasleep.symm.trans ha) (by simp)
    · intro hd
      exact absurd (hasleep.symm.trans (RunPc.awake_of_drained hd)) (by simp)
    · intro _
      simp only [List.length_append, List.length_singleton]
      omega

/-- A flag of a thread's waiter, or `m_running`, is changed. -/
theorem Tokens.flag (h : Tokens g l) (hth : g.threads[t]? = some th) (hpc : th'.pc = th.pc)
    (hqueue : th'.localTaskQueue = th.localTaskQueue) : Tokens (g.setThread t th') l := by
  refine h.goto hth hqueue fun n ht => ?_
  rw [hpc]
  exact ht

theorem Tokens.flag_set (h : Tokens g l) (hi : l[i]? = some p) (hth : g.threads[t]? = some th)
    (hpc : th'.pc = th.pc) (hqueue : th'.localTaskQueue = th.localTaskQueue)
    (hpicks : ∀ u, picks u q = picks u p) : Tokens (g.setThread t th') (l.set i q) :=
  (h.flag hth hpc hqueue).set hi hpicks

/-- **A step of any thread keeps the accounts.** -/
theorem Tokens.next (h : Tokens g l) (hi : l[i]? = some p) (htrans : Transition g p g' q) :
    Tokens g' (l.set i q) := by
  cases htrans with
  | run hth hmove => exact (h.run hth hmove).set hi fun _ => rfl
  | noneWaiting f hnil => exact h.set hi fun _ => rfl
  | choose f hcons => exact h.pick hi hcons (fun _ => rfl) (fun _ => rfl)
  | lock f hth hfree => exact h.flag_set hi hth rfl rfl fun _ => rfl
  | push f hth => exact h.give f hi hth (fun _ => rfl) (fun _ => rfl)
  | kick hth => exact h.flag_set hi hth rfl rfl fun _ => rfl
  | unlock hth => exact h.flag_set hi hth rfl rfl fun _ => rfl
  | share f =>
      have hset := h.set hi (q := .done) fun _ => rfl
      exact ⟨hset.known, hset.token⟩
  | stillRunning hpos => exact h.set hi fun _ => rfl
  | noneRunning hzero => exact h.set hi fun _ => rfl
  | stop k hth => exact h.flag_set hi hth rfl rfl fun _ => rfl
  | stopped k hnone => exact h.set hi fun _ => rfl
  | drained k hnil => exact h.set hi fun _ => by cases k <;> rfl
  | drain k hcons => exact h.pick hi hcons (fun _ => rfl) (fun _ => rfl)
  | killPush k hth => exact h.give _ hi hth (fun _ => rfl) (fun _ => rfl)
  | killKick k hth => exact h.flag_set hi hth rfl rfl fun _ => rfl

/-- Threads that call the pool begin with nothing in their hands. -/
theorem Tokens.append (h : Tokens g l) {ps : List PoolPc} (hps : ∀ u, total (picks u) ps = 0) :
    Tokens g (l ++ ps) := by
  refine h.same h.known (fun {u thu} hu => ⟨thu, hu, rfl, rfl⟩) fun u => ?_
  simp only [tally, total_append, hps, Nat.add_zero]

theorem Tokens.step {s s' : System} {input : Input} (h : Tokens s.shared s.locals)
    (hstep : program.step s input = some s') : Tokens s'.shared s'.locals := by
  obtain ⟨e, g, ps, rfl, he, rfl⟩ | ⟨i, c, p, g, q, rfl, hi, hnext, rfl⟩ := step_cases hstep
  · obtain ⟨rfl, rfl, rfl⟩ | ⟨rfl, rfl, rfl⟩ | ⟨rfl, rfl, rfl⟩ | ⟨t, th, rfl, hth, rfl, rfl⟩ := event_cases he
    · have happ : Tokens s.shared (s.locals ++ [.choosing (.user s.shared.accepted)]) := h.append fun _ => rfl
      exact ⟨happ.known, happ.token⟩
    · exact h.append fun _ => rfl
    · exact h.append fun _ => rfl
    · have hflag : Tokens (s.shared.setThread t { th with blocked := false }) s.locals := h.flag hth rfl rfl
      exact hflag.append fun _ => rfl
  · exact h.next hi (next_cases hnext)

theorem tokens_init (n : Nat) : Tokens (init n).shared (init n).locals := by
  refine ⟨fun t ht => absurd ht (by simp [init]), fun {t th} hth => ?_⟩
  obtain rfl := List.eq_of_mem_replicate (List.mem_of_getElem? hth)
  have htally : tally (init n).shared (init n).locals t = 0 := by
    have hworkers : total (picks t) (init n).locals = 0 := by
      refine total_eq_zero fun p hp => ?_
      obtain ⟨u, -, rfl⟩ := List.mem_map.mp hp
      rfl
    exact (Nat.zero_add _).trans hworkers
  rw [htally]
  exact ⟨Nat.zero_le _, fun _ => rfl, fun _ => rfl, fun hw => absurd hw (by simp [RunPc.awake])⟩

theorem Tokens.of_run {n : Nat} {inputs : List Input} {s : System} (hrun : HThreadPool.run n inputs = some s) :
    Tokens s.shared s.locals :=
  run_invariant (fun s => Tokens s.shared s.locals) Tokens.step (tokens_init n) hrun

end HThreadPool
end Threads
end Hiaux
