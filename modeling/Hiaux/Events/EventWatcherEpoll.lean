import Hiaux.Events.Masks
import Mathlib.Logic.Function.Basic

/-!
# `Events.EventWatcherEpoll` — the watcher over `epoll`

A watcher keeps the mask of every descriptor in `m_sockets_masks` and passes the events it asks for to
`epoll_ctl`, which makes them the whole interest set of the descriptor. A call that fails ends the process
(`exit (0)`), and so has no next state.
-/

namespace Hiaux
namespace Events

/-- `EPOLLIN`. -/
def epollIn : Mask := 1#32 <<< 0

/-- `EPOLLOUT`. -/
def epollOut : Mask := 1#32 <<< 2

/-- `EPOLLET`. -/
def epollEt : Mask := 1#32 <<< 31

theorem has_in (events : Mask) : has events epollIn = events.getLsbD 0 := has_bit events (by decide)

theorem has_out (events : Mask) : has events epollOut = events.getLsbD 2 := has_bit events (by decide)

/-- The operations of `epoll_ctl`. -/
inductive EpollOp where
  | add
  | mod
  | del
deriving DecidableEq, Repr

/-- `epoll_ctl` for an open descriptor, on the events registered for each: a descriptor is added once, and
    changed or removed while it is there. -/
def epollCtl (registered : Int → Option Mask) (op : EpollOp) (fd : Int) (events : Mask) :
    Option (Int → Option Mask) :=
  match op, registered fd with
  | .add, none => some (Function.update registered fd (some events))
  | .mod, some _ => some (Function.update registered fd (some events))
  | .del, some _ => some (Function.update registered fd none)
  | _, _ => none

/-- `EventWatcherEpoll`, with what its `m_epoll` has registered in the kernel. -/
structure EventWatcherEpoll where
  socketsMasks : Int → Option Mask
  registered : Int → Option Mask

namespace EventWatcherEpoll

def new : EventWatcherEpoll := ⟨fun _ => none, fun _ => none⟩

/-- The read and write events that a mask asks for, added to a set of events. -/
def addEvents (events mask : Mask) : Mask :=
  let events := if has mask hiRead then events ||| epollIn else events
  if has mask hiWrite then events ||| epollOut else events

theorem addEvents_in (events mask : Mask) :
    has (addEvents events mask) epollIn = (has events epollIn || has mask hiRead) := by
  have hin : epollIn.getLsbD 0 = true := rfl
  have hout : epollOut.getLsbD 0 = false := rfl
  simp only [addEvents, has_in]
  cases has mask hiRead <;> cases has mask hiWrite <;>
    simp only [Bool.false_eq_true, if_true, if_false, BitVec.getLsbD_or, hin, hout, Bool.or_true, Bool.or_false]

theorem addEvents_out (events mask : Mask) :
    has (addEvents events mask) epollOut = (has events epollOut || has mask hiWrite) := by
  have hin : epollIn.getLsbD 2 = false := rfl
  have hout : epollOut.getLsbD 2 = true := rfl
  simp only [addEvents, has_out]
  cases has mask hiRead <;> cases has mask hiWrite <;>
    simp only [Bool.false_eq_true, if_true, if_false, BitVec.getLsbD_or, hin, hout, Bool.or_true, Bool.or_false]

def addSocket (w : EventWatcherEpoll) (fd : Int) (mask : Mask) : Option EventWatcherEpoll :=
  (epollCtl w.registered .add fd (addEvents epollEt mask)).map fun registered =>
    ⟨Function.update w.socketsMasks fd (some mask), registered⟩

def enableEvents (w : EventWatcherEpoll) (fd : Int) (mask : Mask) : Option EventWatcherEpoll :=
  match w.socketsMasks fd with
  | none => some w
  | some old =>
      let needEnable := ~~~old &&& mask
      (epollCtl w.registered .mod fd (addEvents 0#32 needEnable)).map fun registered =>
        ⟨Function.update w.socketsMasks fd (some (old ||| needEnable)), registered⟩

def delSocket (w : EventWatcherEpoll) (fd : Int) : Option EventWatcherEpoll :=
  match w.socketsMasks fd with
  | none => some w
  | some _ =>
      (epollCtl w.registered .del fd 0#32).map fun registered =>
        ⟨Function.update w.socketsMasks fd none, registered⟩

/-- The read and write events registered in the kernel for a descriptor. -/
def interest (w : EventWatcherEpoll) (fd : Int) : Interest :=
  ⟨(w.registered fd).any (has · epollIn), (w.registered fd).any (has · epollOut)⟩

end EventWatcherEpoll
end Events
end Hiaux
