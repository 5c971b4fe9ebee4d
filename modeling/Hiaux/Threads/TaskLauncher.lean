import Hiaux.Lib.Run
import Hiaux.Lib.Threads

/-!
# `Threads.TaskLauncher` — tasks launched with a limit

`TaskLauncher` keeps tasks in a queue and gives them to a thread pool while fewer than `m_max_parallel` are
counted as running. Its methods are executed by many threads at once. A step is one atomic access: a load
or an increment of a counter, a section under a lock, a load or store of a flag.

An execution is a call of `addTask` from outside, or of `Task` by the pool; `setNoMoreTasks` is a single
store, and so an event. The pool runs every task it is given once, at any time and in any order. C++ leaves
open in which order the operands of `-` and of `==` are evaluated, so the two counters are loaded in either
order. `m_max_parallel` does not change. The closure a task is does not matter, only which task it is.
-/

namespace Hiaux
namespace Threads

open Lib

/-- `TaskLauncher::TaskRet`. -/
inductive TaskRet where
  | relaunch
  | noRelaunch
deriving DecidableEq, Repr

/-- Which of the counters is loaded. -/
inductive Counter where
  | launched
  | finished
deriving DecidableEq, Repr

/-- What the source leaves open in a step: what the task returns, and which counter is loaded first. -/
structure Choice where
  ret : TaskRet
  first : Counter
deriving DecidableEq, Repr

/-- The call `checkLaunch` was called from: `addTask` called from outside, `addTask` called by a `Task` to
    be launched again, or `Task` itself. -/
inductive Caller where
  | addTask
  | relaunch
  | task
deriving DecidableEq, Repr

/-- Where an execution is: each constructor is the access that comes next. The two loads of an expression
    keep what they have loaded. -/
inductive Pc where
  | running (task : Nat)
  | pushing (k : Caller) (task : Nat)
  | counting (k : Caller) (launched finished : Option UInt64)
  | taking (k : Caller)
  | launching (k : Caller) (task : Nat)
  | submitting (k : Caller) (task : Nat)
  | finishing
  | comparing (launched finished : Option UInt64)
  | testingNoMoreTasks
  | testingQueue
  | lockingFinish
  | testingAllFinished
  | settingAllFinished
  | callingOnFinished
  | unlockingFinish
  | done
deriving DecidableEq, Repr

/-- `TaskLauncher`, with the tasks its pool has been given and not yet begun, and the number of calls of
    `m_onFinished`. -/
structure TaskLauncher where
  taskQ : List Nat
  tasksLaunched : UInt64
  tasksFinished : UInt64
  allTasksFinished : Bool
  maxParallel : UInt64
  noMoreTasks : Bool
  finishLocked : Bool
  pool : List Nat
  onFinishedCalls : Nat
deriving DecidableEq, Repr

/-- Where `checkLaunch` returns to. -/
def Caller.return : Caller → Pc
  | .addTask => .done
  | .relaunch => .finishing
  | .task => .comparing none none

namespace TaskLauncher

/-- The constructor. -/
def new (maxParallel : UInt64) : TaskLauncher :=
  { taskQ := [], tasksLaunched := 0, tasksFinished := 0, allTasksFinished := false,
    maxParallel := maxParallel, noMoreTasks := false, finishLocked := false, pool := [],
    onFinishedCalls := 0 }

/-- One of the two loads of an expression over both counters. -/
def load (g : TaskLauncher) (first : Counter) : Option UInt64 → Option UInt64 → Option UInt64 × Option UInt64
  | none, none =>
      match first with
      | .launched => (some g.tasksLaunched, none)
      | .finished => (none, some g.tasksFinished)
  | none, some f => (some g.tasksLaunched, some f)
  | some l, none => (some l, some g.tasksFinished)
  | some l, some f => (some l, some f)

/-- `while (countRunning() < m_max_parallel)`, one load; with both values the test is made. -/
def countRunning (g : TaskLauncher) (first : Counter) (k : Caller) (l f : Option UInt64) : Pc :=
  match g.load first l f with
  | (some l, some f) => if l - f < g.maxParallel then .taking k else k.return
  | (l, f) => .counting k l f

/-- `tasks_launched.load() == tasks_finished.load()` in `checkFinished`, one load. -/
def compareCounters (g : TaskLauncher) (first : Counter) (l f : Option UInt64) : Pc :=
  match g.load first l f with
  | (some l, some f) => if l = f then .testingNoMoreTasks else .done
  | (l, f) => .comparing l f

/-- One step of an execution. -/
def next (g : TaskLauncher) : Pc → Choice → Option (TaskLauncher × Pc)
  -- `Task`
  | .running task, c =>
      match c.ret with
      | .relaunch => some (g, .pushing .relaunch task)
      | .noRelaunch => some (g, .finishing)
  | .finishing, _ => some ({ g with tasksFinished := g.tasksFinished + 1 }, .counting .task none none)
  -- `addTask`
  | .pushing k task, _ => some ({ g with taskQ := g.taskQ ++ [task] }, .counting k none none)
  -- `checkLaunch`
  | .counting k l f, c => some (g, g.countRunning c.first k l f)
  | .taking k, _ =>
      match g.taskQ with
      | [] => some (g, k.return)
      | task :: rest => some ({ g with taskQ := rest }, .launching k task)
  -- `launch`
  | .launching k task, _ => some ({ g with tasksLaunched := g.tasksLaunched + 1 }, .submitting k task)
  | .submitting k task, _ => some ({ g with pool := g.pool ++ [task] }, .counting k none none)
  -- `checkFinished`
  | .comparing l f, c => some (g, g.compareCounters c.first l f)
  | .testingNoMoreTasks, _ => some (g, if g.noMoreTasks then .testingQueue else .done)
  | .testingQueue, _ => some (g, if g.taskQ = [] then .lockingFinish else .done)
  | .lockingFinish, _ =>
      if g.finishLocked then some (g, .done) else some ({ g with finishLocked := true }, .testingAllFinished)
  -- a second arrival returns with the lock held
  | .testingAllFinished, _ => some (g, if g.allTasksFinished then .done else .settingAllFinished)
  | .settingAllFinished, _ => some ({ g with allTasksFinished := true }, .callingOnFinished)
  | .callingOnFinished, _ => some ({ g with onFinishedCalls := g.onFinishedCalls + 1 }, .unlockingFinish)
  | .unlockingFinish, _ => some ({ g with finishLocked := false }, .done)
  | .done, _ => none

/-- What happens from outside: a call of `addTask`, a call of `setNoMoreTasks`, and the pool beginning with
    one of its tasks. -/
inductive Event where
  | addTask (task : Nat)
  | setNoMoreTasks
  | start (j : Nat)
deriving DecidableEq, Repr

/-- What an event does. -/
def event (g : TaskLauncher) : Event → Option (TaskLauncher × List Pc)
  | .addTask task => some (g, [.pushing .addTask task])
  | .setNoMoreTasks => some ({ g with noMoreTasks := true }, [])
  | .start j => g.pool[j]?.map (fun task => ({ g with pool := g.pool.eraseIdx j }, [.running task]))

/-- The launcher and the executions of its methods. -/
def threads : Lib.Threads TaskLauncher Pc Event Choice where
  event := event
  next := next

/-- A state of the system. -/
abbrev System := Lib.Threads.Config TaskLauncher Pc

/-- What a run is made of. -/
abbrev Input := Lib.Threads.Input Event Choice

/-- No execution yet. -/
def init (maxParallel : UInt64) : System := ⟨new maxParallel, []⟩

/-- A run. -/
def run (maxParallel : UInt64) (inputs : List Input) : Option System :=
  Lib.run threads.step (init maxParallel) inputs

/-! ## Where the tasks are -/

/-- The tasks an execution keeps launched and not finished: the one it runs, up to `tasks_finished++`, and
    one it has counted as launched and not yet given to the pool. -/
def launchedIn : Pc → Nat
  | .running _ => 1
  | .pushing k _ => unfinished k
  | .counting k _ _ => unfinished k
  | .taking k => unfinished k
  | .launching k _ => unfinished k
  | .submitting k _ => unfinished k + 1
  | .finishing => 1
  | _ => 0
where
  unfinished : Caller → Nat
    | .relaunch => 1
    | _ => 0

/-- The tasks an execution has popped from `task_q` and not yet counted as launched. -/
def poppedIn : Pc → Nat
  | .launching _ _ => 1
  | _ => 0

/-- The tasks launched and not yet finished. -/
def launched (s : System) : Nat := s.shared.pool.length + Lib.Threads.total launchedIn s.locals

/-- The tasks popped and not yet counted as launched. -/
def popped (s : System) : Nat := Lib.Threads.total poppedIn s.locals

/-- No thread is inside the launcher. -/
def Idle (s : System) : Prop := ∀ p ∈ s.locals, p = .done

end TaskLauncher
end Threads
end Hiaux
