import Hiaux.Lib.Run
import Hiaux.Lib.Threads

/-!
# `Tools.RegularTask` — a task that is run once a period

`RegularTask::checkRun` tries the lock, reads the clock, and runs the task if more than a period has passed since the
last launch. Its ticket is given back at the end, if `tryLock` returned one. Nothing looks at the ticket before. A
step is one access; the task itself begins and ends.
-/

namespace Hiaux
namespace Tools

open Lib

/-- `RegularTask`: whether `m_lock` is taken, `m_last_launch_ts`, `m_period`; with what `time` returns, and the clock
    values recorded so far. -/
structure RegularTask where
  locked : Bool
  lastLaunchTs : UInt64
  period : UInt64
  clock : UInt64
  launches : List UInt64
deriving DecidableEq, Repr

/-- Where a call of `checkRun` is: each constructor is the access that comes next. `ticket` is whether `tryLock`
    returned one. -/
inductive CheckRunPc where
  | trying
  | reading (ticket : Bool)
  | comparing (ticket : Bool) (now : UInt64)
  | updating (ticket : Bool) (now : UInt64)
  | calling (ticket : Bool)
  | running (ticket : Bool)
  | releasing (ticket : Bool)
  | done
deriving DecidableEq, Repr

namespace RegularTask

/-- The condition of `checkRun`. -/
def due (g : RegularTask) (now : UInt64) : Bool := now - g.lastLaunchTs > g.period

/-- One step of `checkRun`. -/
def next (g : RegularTask) (pc : CheckRunPc) (_ : Unit) : Option (RegularTask × CheckRunPc) :=
  match pc with
  -- `hAutoLock::tryLock`
  | .trying => if g.locked then some (g, .reading false) else some ({ g with locked := true }, .reading true)
  | .reading ticket => some (g, .comparing ticket g.clock)
  | .comparing ticket now => some (g, if g.due now then .updating ticket now else .releasing ticket)
  | .updating ticket now => some ({ g with lastLaunchTs := now, launches := g.launches ++ [now] }, .calling ticket)
  | .calling ticket => some (g, .running ticket)
  | .running ticket => some (g, .releasing ticket)
  -- `hLockTicket::~hLockTicket`
  | .releasing ticket => some (if ticket then { g with locked := false } else g, .done)
  | .done => none

/-- What happens from outside: a call of `checkRun`, and the clock goes on. -/
inductive Event where
  | checkRun
  | tick (clock : UInt64)
deriving DecidableEq, Repr

/-- What an event does. The clock does not go back. -/
def event (g : RegularTask) : Event → Option (RegularTask × List CheckRunPc)
  | .checkRun => some (g, [.trying])
  | .tick clock => if g.clock ≤ clock then some ({ g with clock := clock }, []) else none

/-- The task, and the calls of `checkRun`. -/
def program : Lib.Threads RegularTask CheckRunPc Event Unit where
  event := event
  next := next

/-- A state of the system. -/
abbrev System := Lib.Threads.Config RegularTask CheckRunPc

/-- What a run is made of. -/
abbrev Input := Lib.Threads.Input Event Unit

/-- A new `RegularTask`, at some time. -/
def init (period clock : UInt64) : System := ⟨⟨false, 0, period, clock, []⟩, []⟩

end RegularTask
end Tools
end Hiaux
