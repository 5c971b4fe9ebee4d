import Hiaux.Lib.Run
import Hiaux.Lib.Threads

/-!
# `Threads.Locks` — the guards of a read-write lock

`hRWLock::read` and `hRWLock::write` take the lock and return a guard. A guard can be copied; each gives the lock back
in its destructor, and `unlock` gives it back before. The write guard has `m_locked` to say that its destructor has
nothing left to do, and a copy of it has one of its own; the read guard has nothing of the kind.

A run is a sequence of calls that have returned, in the order in which they did. When the lock lets `read` and `write`
return is left open, so that the runs include all those that it allows. Guards are numbered in the order in which they
are made, and so are the acquisitions.
-/

namespace Hiaux
namespace Threads

open Lib

/-- The functions called on a `pthread_rwlock_t`. -/
inductive RWLockOp where
  | rdlock
  | wrlock
  | unlock
deriving DecidableEq, Repr

/-- A call on the lock at an address. -/
structure RWLockCall where
  lock : Nat
  op : RWLockOp
deriving DecidableEq, Repr

/-! ## `hRWLockRead` -/

/-- `hRWLockRead`. -/
structure HRWLockRead where
  lock : Nat
deriving DecidableEq, Repr

namespace HRWLockRead

/-- The constructor, with the calls it makes. -/
def new (lock : Nat) : HRWLockRead × List RWLockCall := (⟨lock⟩, [⟨lock, .rdlock⟩])

/-- The copy constructor. -/
def copy (a : HRWLockRead) : HRWLockRead := ⟨a.lock⟩

/-- `unlock`. -/
def unlock (g : HRWLockRead) : HRWLockRead × List RWLockCall := (g, [⟨g.lock, .unlock⟩])

/-- The destructor. -/
def destroy (g : HRWLockRead) : List RWLockCall := [⟨g.lock, .unlock⟩]

end HRWLockRead

/-! ## `hRWLockWrite` -/

/-- `hRWLockWrite`. -/
structure HRWLockWrite where
  lock : Nat
  locked : Bool
deriving DecidableEq, Repr

namespace HRWLockWrite

/-- The constructor, with the calls it makes. -/
def new (lock : Nat) : HRWLockWrite × List RWLockCall := (⟨lock, true⟩, [⟨lock, .wrlock⟩])

/-- The copy constructor. -/
def copy (a : HRWLockWrite) : HRWLockWrite := ⟨a.lock, a.locked⟩

/-- `unlock`. -/
def unlock (g : HRWLockWrite) : HRWLockWrite × List RWLockCall := ({ g with locked := false }, [⟨g.lock, .unlock⟩])

/-- The destructor. -/
def destroy (g : HRWLockWrite) : List RWLockCall := if g.locked then [⟨g.lock, .unlock⟩] else []

end HRWLockWrite

/-! ## `hRWLock` -/

/-- `hRWLock`: the address of its lock. -/
structure HRWLock where
  lock : Nat
deriving DecidableEq, Repr

/-- `hRWLock::read`. The guard is made where the caller wants it. -/
def HRWLock.read (l : HRWLock) : HRWLockRead × List RWLockCall := HRWLockRead.new l.lock

/-- `hRWLock::write`. -/
def HRWLock.write (l : HRWLock) : HRWLockWrite × List RWLockCall := HRWLockWrite.new l.lock

/-! ## Programs that use guards -/

/-- A guard of either class. -/
inductive Guard where
  | read (g : HRWLockRead)
  | write (g : HRWLockWrite)
deriving DecidableEq, Repr

namespace Guard

def lock : Guard → Nat
  | read g => g.lock
  | write g => g.lock

def copy : Guard → Guard
  | read g => read g.copy
  | write g => write g.copy

def unlock : Guard → Guard × List RWLockCall
  | read g => (read g.unlock.1, g.unlock.2)
  | write g => (write g.unlock.1, g.unlock.2)

def destroy : Guard → List RWLockCall
  | read g => g.destroy
  | write g => g.destroy

end Guard

/-- A guard, and the acquisition that it or its original was returned for. -/
structure Held where
  acquisition : Nat
  guard : Guard
deriving DecidableEq, Repr

/-- A call on a lock, and the acquisition that it makes or that its guard is for. -/
structure LockEvent where
  acquisition : Nat
  call : RWLockCall
deriving DecidableEq, Repr

/-- The guards made so far, without those destroyed; how many acquisitions there were; and all calls on locks. -/
structure Guards where
  guards : List (Option Held)
  acquired : Nat
  events : List LockEvent
deriving DecidableEq, Repr

namespace Guards

/-- What a program does with locks and guards. -/
inductive Action where
  | read (l : HRWLock)
  | write (l : HRWLock)
  | copy (i : Nat)
  | unlock (i : Nat)
  | destroy (i : Nat)
deriving DecidableEq, Repr

/-- The guard with a number, if it is there. -/
def held (s : Guards) (i : Nat) : Option Held := s.guards[i]?.join

/-- The calls made on locks for an acquisition. -/
def record (s : Guards) (acquisition : Nat) (calls : List RWLockCall) : Guards :=
  { s with events := s.events ++ calls.map (fun call => ⟨acquisition, call⟩) }

/-- A new acquisition, with the guard returned for it. -/
def acquire (s : Guards) (g : Guard) (calls : List RWLockCall) : Guards :=
  record { s with guards := s.guards ++ [some ⟨s.acquired, g⟩], acquired := s.acquired + 1 } s.acquired calls

/-- One action. Guards that are not there are not used. -/
def step (s : Guards) : Action → Option Guards
  | .read l => some (s.acquire (.read l.read.1) l.read.2)
  | .write l => some (s.acquire (.write l.write.1) l.write.2)
  | .copy i => (s.held i).map fun h => { s with guards := s.guards ++ [some { h with guard := h.guard.copy }] }
  | .unlock i => (s.held i).map fun h =>
      record { s with guards := s.guards.set i (some { h with guard := h.guard.unlock.1 }) } h.acquisition
        h.guard.unlock.2
  | .destroy i => (s.held i).map fun h =>
      record { s with guards := s.guards.set i none } h.acquisition h.guard.destroy

/-- Before the first acquisition. -/
def init : Guards := ⟨[], 0, []⟩

/-- The calls that release the lock for an acquisition. -/
def releases (s : Guards) (a : Nat) : Nat := s.events.countP (fun e => e.acquisition = a ∧ e.call.op = .unlock)

end Guards
end Threads
end Hiaux
