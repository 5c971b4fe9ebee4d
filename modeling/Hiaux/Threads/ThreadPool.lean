import Hiaux.Lib.Run
import Hiaux.Lib.Threads

/-!
# `Threads.ThreadPool` — the thread pool

A pool thread runs the tasks of its own queue, then those of the shared queue, then lists itself in
`waiting_threads` and waits until its own queue is not empty. `hThreadPool::addTask` takes a listed thread
off the list and gives it the task directly, or puts the task in the shared queue. `kill` tells every thread
to stop and wakes the listed ones with a task of their own; the destructor calls it until no thread runs.

A step is a section under one of the locks, a load or store of a flag, or one operation on the mutex and
the condition variable of an `hCondWaiter`. A thread blocked in `pthread_cond_wait` is woken by a signal, or
for no reason. Tasks come to an end; what they do to the pool, they do as callers of `addTask`.
-/

namespace Hiaux
namespace Threads

open Lib

/-- A task: one passed to `hThreadPool::addTask`, or `NEWTASK2(&hThread::kill, thread)`. -/
inductive Task where
  | user (id : Nat)
  | kill (thread : Nat)
deriving DecidableEq, Repr

/-- Where a pool thread is in `hThread::run` and, inside it, in `hCondWaiter::wait`: each constructor is
    the access that comes next. -/
inductive RunPc where
  | starting
  | testingRunning
  | takingLocal
  | runningLocal (task : Task)
  | testingAfterLocal
  | takingShared
  | runningShared (task : Task)
  | testingAfterShared
  | listing
  | lockingWaiter
  | testingQueue
  | sleeping
  | asleep
  | unlockingWaiter
  | leaving
  | stopped
deriving DecidableEq, Repr

/-- `hThread`: where its thread is, `m_running`, its queue, and of its `hCondWaiter` whether the mutex is
    locked and whether the thread is blocked on the condition variable. -/
structure HThread where
  pc : RunPc
  running : Bool
  localTaskQueue : List Task
  locked : Bool
  blocked : Bool
deriving DecidableEq, Repr

/-- `hThreadPool`, with the number of tasks passed to `addTask` and the tasks executed so far. -/
structure HThreadPool where
  taskQueue : List Task
  waitingThreads : List Nat
  threads : List HThread
  nrunningThreads : Nat
  accepted : Nat
  executed : List Task
deriving DecidableEq, Repr

/-- Who called `hThreadPool::kill`. -/
inductive Killer where
  | user
  | destructor
deriving DecidableEq, Repr

/-- The threads of the program: the pool's, which are where their `hThread` says, and those that call
    `hThreadPool::addTask`, `hThreadPool::kill` or the destructor. -/
inductive PoolPc where
  | worker (t : Nat)
  | choosing (task : Task)
  | locking (t : Nat) (task : Task)
  | pushing (t : Nat) (task : Task)
  | kicking (t : Nat)
  | unlocking (t : Nat)
  | sharing (task : Task)
  | testingNrunning
  | stopping (k : Killer) (i : Nat)
  | draining (k : Killer)
  | killPushing (k : Killer) (t : Nat)
  | killKicking (k : Killer) (t : Nat)
  | done
deriving DecidableEq, Repr

namespace HThreadPool

/-- Changing a thread. -/
def setThread (g : HThreadPool) (t : Nat) (th : HThread) : HThreadPool :=
  { g with threads := g.threads.set t th }

/-- `(*f)()`, as far as the pool is concerned. -/
def perform (g : HThreadPool) (f : Task) : HThreadPool :=
  match f with
  | .user _ => { g with executed := g.executed ++ [f] }
  | .kill t =>
      match g.threads[t]? with
      | some th => { g.setThread t { th with running := false } with executed := g.executed ++ [f] }
      | none => { g with executed := g.executed ++ [f] }

/-- One step of `hThread::run` in the thread `t`, which is where `th` says. -/
def runStep (g : HThreadPool) (t : Nat) (th : HThread) : Option HThreadPool :=
  let goto (pc : RunPc) : HThreadPool := g.setThread t { th with pc := pc }
  match th.pc with
  | .starting => some { goto .testingRunning with nrunningThreads := g.nrunningThreads + 1 }
  | .testingRunning => some (goto (if th.running then .takingLocal else .leaving))
  | .takingLocal =>
      match th.localTaskQueue with
      | [] => some (goto .testingAfterLocal)
      | f :: rest => some (g.setThread t { th with localTaskQueue := rest, pc := .runningLocal f })
  | .runningLocal f => some ((goto .takingLocal).perform f)
  | .testingAfterLocal => some (goto (if th.running then .takingShared else .leaving))
  | .takingShared =>
      match g.taskQueue with
      | [] => some (goto .testingAfterShared)
      | f :: rest => some { goto (.runningShared f) with taskQueue := rest }
  | .runningShared f => some ((goto .takingShared).perform f)
  | .testingAfterShared => some (goto (if th.running then .listing else .leaving))
  | .listing => some { goto .lockingWaiter with waitingThreads := g.waitingThreads ++ [t] }
  -- `hCondWaiter::wait`
  | .lockingWaiter =>
      if th.locked then none else some (g.setThread t { th with locked := true, pc := .testingQueue })
  | .testingQueue => some (goto (if th.localTaskQueue = [] then .sleeping else .unlockingWaiter))
  | .sleeping => some (g.setThread t { th with locked := false, blocked := true, pc := .asleep })
  | .asleep =>
      if th.blocked || th.locked then none
      else some (g.setThread t { th with locked := true, pc := .testingQueue })
  | .unlockingWaiter => some (g.setThread t { th with locked := false, pc := .testingRunning })
  | .leaving => some { goto .stopped with nrunningThreads := g.nrunningThreads - 1 }
  | .stopped => none

/-- Where a call of `kill` returns to. -/
def afterKill : Killer → PoolPc
  | .user => .done
  | .destructor => .testingNrunning

/-- One step. -/
def next (g : HThreadPool) (pc : PoolPc) (_ : Unit) : Option (HThreadPool × PoolPc) :=
  match pc with
  | .worker t => g.threads[t]?.bind (fun th => (g.runStep t th).map (fun g' => (g', .worker t)))
  -- `hThreadPool::addTask`
  | .choosing f =>
      match g.waitingThreads with
      | [] => some (g, .sharing f)
      | t :: rest => some ({ g with waitingThreads := rest }, .locking t f)
  | .locking t f =>
      g.threads[t]?.bind (fun th =>
        if th.locked then none else some (g.setThread t { th with locked := true }, .pushing t f))
  | .pushing t f =>
      g.threads[t]?.map (fun th =>
        (g.setThread t { th with localTaskQueue := th.localTaskQueue ++ [f] }, .kicking t))
  | .kicking t =>
      g.threads[t]?.map (fun th => (g.setThread t { th with blocked := false }, .unlocking t))
  | .unlocking t =>
      g.threads[t]?.map (fun th => (g.setThread t { th with locked := false }, .done))
  | .sharing f => some ({ g with taskQueue := g.taskQueue ++ [f] }, .done)
  -- `hThreadPool::~hThreadPool`
  | .testingNrunning => some (g, if 0 < g.nrunningThreads then .stopping .destructor 0 else .done)
  -- `hThreadPool::kill`
  | .stopping k i =>
      match g.threads[i]? with
      | some th => some (g.setThread i { th with running := false }, .stopping k (i + 1))
      | none => some (g, .draining k)
  | .draining k =>
      match g.waitingThreads with
      | [] => some (g, afterKill k)
      | t :: rest => some ({ g with waitingThreads := rest }, .killPushing k t)
  | .killPushing k t =>
      g.threads[t]?.map (fun th =>
        (g.setThread t { th with localTaskQueue := th.localTaskQueue ++ [.kill t] }, .killKicking k t))
  | .killKicking k t =>
      g.threads[t]?.map (fun th => (g.setThread t { th with blocked := false }, .draining k))
  | .done => none

/-- What happens from outside: a call of `addTask` with a new task, of `kill`, of the destructor; and a
    thread blocked in `pthread_cond_wait` that wakes for no reason. -/
inductive Event where
  | addTask
  | kill
  | destroy
  | wake (t : Nat)
deriving DecidableEq, Repr

/-- What an event does. -/
def event (g : HThreadPool) : Event → Option (HThreadPool × List PoolPc)
  | .addTask => some ({ g with accepted := g.accepted + 1 }, [.choosing (.user g.accepted)])
  | .kill => some (g, [.stopping .user 0])
  | .destroy => some (g, [.testingNrunning])
  | .wake t => g.threads[t]?.map (fun th => (g.setThread t { th with blocked := false }, []))

/-- The pool and the threads that use it. -/
def program : Lib.Threads HThreadPool PoolPc Event Unit where
  event := event
  next := next

/-- A state of the system. -/
abbrev System := Lib.Threads.Config HThreadPool PoolPc

/-- What a run is made of. -/
abbrev Input := Lib.Threads.Input Event Unit

/-- A pool of `n` threads, none of which has begun. -/
def init (n : Nat) : System :=
  ⟨{ taskQueue := [], waitingThreads := [], threads := List.replicate n ⟨.starting, true, [], false, false⟩,
     nrunningThreads := 0, accepted := 0, executed := [] }, (List.range n).map .worker⟩

/-- A run. -/
def run (n : Nat) (inputs : List Input) : Option System := Lib.run program.step (init n) inputs

end HThreadPool
end Threads
end Hiaux
