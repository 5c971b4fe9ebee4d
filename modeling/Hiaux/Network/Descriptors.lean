import Hiaux.Lib.Run
import Hiaux.Lib.Threads
import Std.Data.ExtTreeMap.Lemmas

/-!
# `Network.Descriptors` — the descriptors of connections

A connection has the number of its socket, and the destructors of both classes close that number and then shut it
down. The kernel may give the number to another socket as soon as it is closed. A step is one system call: an
`accept` or `connect` that makes a connection, or one call of a destructor. The descriptors that the process uses for
something else are numbers that `accept` and `connect` do not return.
-/

namespace Hiaux
namespace Network

open Lib

/-- The system calls of the destructors. -/
inductive SysCall where
  | close
  | shutdown
deriving DecidableEq, Repr

/-- The classes of connections: those of the server, and those of the client. -/
inductive ConnectionClass where
  | httpConnection
  | connection
deriving DecidableEq, Repr

/-- `HttpConnection::~HttpConnection`. -/
def httpConnectionDestructor : List SysCall := [.close, .shutdown]

/-- `Connection::~Connection`, up to the requests it reports. -/
def connectionDestructor : List SysCall := [.close, .shutdown]

/-- The destructor of a class. -/
def ConnectionClass.destructor : ConnectionClass → List SysCall
  | .httpConnection => httpConnectionDestructor
  | .connection => connectionDestructor

/-- A connection: the number of its socket, and once its destructor runs, the calls that are left of it. -/
structure Endpoint where
  cls : ConnectionClass
  id : Nat
  sock : Nat
  calls : Option (List SysCall)
deriving DecidableEq, Repr

/-- A system call of a destructor: the connection that makes it, and the one whose socket has the number then. -/
structure Acted where
  actor : Nat
  call : SysCall
  owner : Option Nat
deriving DecidableEq, Repr

/-- The process: the connection to which each descriptor belongs, how many connections have been made, and the calls
    of destructors so far. -/
structure Process where
  table : Std.ExtTreeMap Nat Nat
  made : Nat
  acted : List Acted

namespace Process

/-- A new socket, and its connection. -/
def newSocket (cls : ConnectionClass) (fd : Nat) (p : Process) : Option (Process × List Endpoint) :=
  if fd ∈ p.table then none
  else some ({ p with table := p.table.insert fd p.made, made := p.made + 1 }, [⟨cls, p.made, fd, none⟩])

/-- What makes connections. -/
inductive Event where
  | accept (fd : Nat)
  | connect (fd : Nat)
deriving DecidableEq, Repr

/-- What an event does: a round of the loop of `HttpServer::performAccept`, or
    `BinClientA::establishNewConnection`. -/
def event (p : Process) : Event → Option (Process × List Endpoint)
  | .accept fd => if 0 < fd then p.newSocket .httpConnection fd else none
  | .connect fd => p.newSocket .connection fd

/-- A call of a destructor. On a number that is not open it fails. -/
def perform (o : Endpoint) (call : SysCall) (p : Process) : Process :=
  let p := { p with acted := p.acted ++ [⟨o.id, call, p.table[o.sock]?⟩] }
  match call with
  | .close => { p with table := p.table.erase o.sock }
  | .shutdown => p

theorem perform_acted (o : Endpoint) (call : SysCall) (p : Process) :
    (p.perform o call).acted = p.acted ++ [⟨o.id, call, p.table[o.sock]?⟩] := by
  cases call <;> rfl

/-- What a connection does next: its destructor begins, or makes its next call. -/
def next (p : Process) (o : Endpoint) (_ : Unit) : Option (Process × Endpoint) :=
  match o.calls with
  | none => some (p, { o with calls := some o.cls.destructor })
  | some [] => none
  | some (call :: rest) => some (p.perform o call, { o with calls := some rest })

/-- The process and its connections. -/
def program : Lib.Threads Process Endpoint Event Unit where
  event := event
  next := next

/-- A state of the system. -/
abbrev System := Lib.Threads.Config Process Endpoint

/-- What a run is made of. -/
abbrev Input := Lib.Threads.Input Event Unit

/-- Before the first connection. -/
def init : System := ⟨⟨∅, 0, []⟩, []⟩

end Process
end Network
end Hiaux
