import Hiaux.Events.Masks
import Mathlib.Logic.Function.Basic

/-!
# `Events.EventWatcherKqueue` — the watcher over `kqueue`

`kevent` adds and removes one filter for each change it is given, up to the first that fails.
-/

namespace Hiaux
namespace Events

/-- `EVFILT_READ` and `EVFILT_WRITE`. -/
inductive Filter where
  | read
  | write
deriving DecidableEq, Repr

/-- `EV_ADD` and `EV_DELETE`. -/
inductive Action where
  | add
  | delete
deriving DecidableEq, Repr

/-- `struct kevent`, as passed in a list of changes. -/
structure KEvent where
  ident : Int
  filter : Filter
  action : Action
deriving DecidableEq, Repr

/-- Whether a filter is among the enabled ones. -/
def Interest.get (enabled : Interest) : Filter → Bool
  | .read => enabled.read
  | .write => enabled.write

def Interest.set (enabled : Interest) (value : Bool) : Filter → Interest
  | .read => { enabled with read := value }
  | .write => { enabled with write := value }

/-- One change: a filter is added, or removed if it is there. -/
def change (enabled : Int → Interest) (ev : KEvent) : Option (Int → Interest) :=
  match ev.action with
  | .add => some (Function.update enabled ev.ident ((enabled ev.ident).set true ev.filter))
  | .delete =>
      if (enabled ev.ident).get ev.filter then
        some (Function.update enabled ev.ident ((enabled ev.ident).set false ev.filter))
      else none

/-- `kevent` with a list of changes: what is enabled afterwards, and whether it succeeded. -/
def kevent (enabled : Int → Interest) : List KEvent → (Int → Interest) × Bool
  | [] => (enabled, true)
  | ev :: evs =>
      match change enabled ev with
      | some enabled => kevent enabled evs
      | none => (enabled, false)

/-- `EventWatcherKqueue`, with the filters its `m_kqueue` has enabled in the kernel. -/
structure EventWatcherKqueue where
  socketsMasks : Int → Option Mask
  enabled : Int → Interest

namespace EventWatcherKqueue

def new : EventWatcherKqueue := ⟨fun _ => none, fun _ => ⟨false, false⟩⟩

/-- The changes for the read and write events of a mask. -/
def changes (fd : Int) (mask : Mask) (action : Action) : List KEvent :=
  (if has mask hiRead then [⟨fd, .read, action⟩] else []) ++
    if has mask hiWrite then [⟨fd, .write, action⟩] else []

def addSocket (w : EventWatcherKqueue) (fd : Int) (mask : Mask) : Option EventWatcherKqueue :=
  match kevent w.enabled (changes fd mask .add) with
  | (enabled, true) => some ⟨Function.update w.socketsMasks fd (some mask), enabled⟩
  | (_, false) => none

def enableEvents (w : EventWatcherKqueue) (fd : Int) (mask : Mask) : Option EventWatcherKqueue :=
  match w.socketsMasks fd with
  | none => some w
  | some old =>
      let needEnable := ~~~old &&& mask
      match kevent w.enabled (changes fd needEnable .add) with
      | (enabled, true) => some ⟨Function.update w.socketsMasks fd (some (old ||| needEnable)), enabled⟩
      | (_, false) => none

/-- A failure of `kevent` is reported and the entry is erased all the same. -/
def delSocket (w : EventWatcherKqueue) (fd : Int) : EventWatcherKqueue :=
  match w.socketsMasks fd with
  | none => w
  | some mask =>
      ⟨Function.update w.socketsMasks fd none, (kevent w.enabled (changes fd mask .delete)).1⟩

end EventWatcherKqueue
end Events
end Hiaux
