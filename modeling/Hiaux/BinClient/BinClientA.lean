import Hiaux.BinClient.Connection
import Hiaux.Lib.Run

/-!
# `BinClient.BinClientA` — the asynchronous client

`BinClientA` keeps a number of connections to the server, hands the requests of its users to connections
that are free, and replaces connections that are lost. A step is one event of a socket, one call by a user,
or what `handleEvents` does before it waits for events. Callbacks return, and do not call the client while
it holds its lock; a call made from a callback otherwise is like one made right after the event, since
nothing in between looks at the new requests.

Connections are objects at addresses, shared by the two tables and the local variables of a handler. At the
end of a handler those that no table refers to any more are destroyed, which finishes their requests with
failure. Beside each connection the model keeps which requests were added to it and which responses were
received on it; beside the client, which requests were passed to `call` and which calls of `onFinished`
were made.

Where the source leaves the defined behaviour — the front of an empty queue, an iterator that has been
erased — or never comes back from a receive loop, the run ends (`undefined`).
-/

namespace Hiaux
namespace BinClient

open Lib Strings Network

/-- A connection object, with the requests added to it and the responses received on it. -/
structure ConnObject where
  conn : Connection
  added : List Request
  received : List Bytes

/-- A call of a request's `onFinished`, made by the connection at `conn`. -/
structure Finished where
  conn : Nat
  request : Request
  ok : Bool
  resp : Bytes
deriving DecidableEq, Repr

/-- A socket that has been connected, and what the first send on it gives. -/
structure Dialed where
  sock : Nat
  now : Nat
  sent : SendResult
deriving DecidableEq, Repr

/-- `BinClientA`. -/
structure BinClientA where
  objects : Nat → ConnObject
  allocated : Nat
  connections : Std.ExtTreeMap Nat Nat
  freeConnections : Std.ExtTreeMap Nat Nat
  newRequests : List Request
  maxConnections : Nat
  issued : List Request
  finished : List Finished
  undefined : Bool

namespace BinClientA

/-- The connection at an address. -/
def conn (s : BinClientA) (i : Nat) : Connection := (s.objects i).conn

/-- Changing an object. -/
def modify (i : Nat) (f : ConnObject → ConnObject) (s : BinClientA) : BinClientA :=
  { s with objects := Function.update s.objects i (f (s.objects i)) }

/-- Changing a connection. -/
def setConn (i : Nat) (c : Connection) (s : BinClientA) : BinClientA :=
  s.modify i (fun o => { o with conn := c })

/-! ## Lifetime of connections -/

/-- Whether a table refers to a connection. -/
def referenced (s : BinClientA) (i : Nat) : Bool :=
  s.connections.toList.any (·.2 = i) || s.freeConnections.toList.any (·.2 = i)

/-- A connection nothing refers to is destroyed. -/
def release (i : Nat) (s : BinClientA) : BinClientA :=
  if s.referenced i then s
  else
    { s.setConn i { s.conn i with sentRequests := [] } with
      finished := s.finished ++ (s.conn i).destroy.map (fun req => ⟨i, req, false, []⟩) }

/-- The end of a handler: its local variables no longer hold a connection. -/
def collect (s : BinClientA) : BinClientA := (List.range s.allocated).foldl (fun s i => s.release i) s

/-- `BinClientA::establishNewConnection`. A failure to connect is caught; an exception of the first send is
    not. A connection whose descriptor is in the table already is not inserted. -/
def establishNewConnection (dialed : Option Dialed) (s : BinClientA) : BinClientA × Option ConnEx :=
  match dialed with
  | none => (s, none)
  | some d =>
      match Connection.new d.sock d.now d.sent with
      | (_, some e) => (s, some e)
      | (c, none) =>
          ({ s with
            objects := Function.update s.objects s.allocated ⟨c, [], []⟩
            allocated := s.allocated + 1
            connections := s.connections.insertIfNew d.sock s.allocated }, none)

/-- `BinClientA::removeConnection`. -/
def removeConnection (i : Nat) (s : BinClientA) : BinClientA :=
  { s with
    connections := s.connections.erase (s.conn i).sock
    freeConnections := s.freeConnections.erase (s.conn i).sock }

/-- `BinClientA::onLostConnection`, which catches everything. -/
def onLostConnection (i : Nat) (dialed : Option Dialed) (s : BinClientA) : BinClientA :=
  ((s.removeConnection i).establishNewConnection dialed).1

/-! ## Sending and receiving -/

/-- `BinClientA::performSend`. -/
def performSend (i : Nat) (r : SendResult) (dialed : Option Dialed) (s : BinClientA) : BinClientA :=
  match (s.conn i).performSend r with
  | (c, some .lostConnectionEx) => (s.setConn i c).onLostConnection i dialed
  | (c, _) => s.setConn i c

/-- `conn->addRequest(req)`. -/
def addRequest (i : Nat) (req : Request) (s : BinClientA) : BinClientA :=
  s.modify i (fun o => { o with conn := o.conn.addRequest req, added := o.added ++ [req] })

/-- `BinClientA::performRecv`. -/
def performRecv (i : Nat) (junk : Junk) (rs : List RecvResult) (dialed : Option Dialed)
    (s : BinClientA) : BinClientA :=
  let out := (s.conn i).performRecv junk rs
  let received := (s.conn i).responses junk rs
  let s := s.modify i (fun o => { o with conn := out.conn, received := o.received ++ received })
  let s := { s with
    finished := s.finished ++ out.finished.map (fun p => ⟨i, p.1, true, p.2⟩)
    undefined := out.undefined }
  if out.undefined then s
  else
    match out.thrown with
    | some .lostConnectionEx => s.onLostConnection i dialed
    | some (.parser _) => s.onLostConnection i dialed
    | _ => s

/-! ## Handlers -/

/-- `BinClientA::onRead`. -/
def onRead (sock : Nat) (junk : Junk) (rs : List RecvResult) (dialed : Option Dialed) (s : BinClientA) :
    BinClientA :=
  match s.connections[sock]? with
  | none => s
  | some i =>
      let s := s.performRecv i junk rs dialed
      if s.undefined then s else s.collect

/-- `m_free_connections[_sock] = conn`. -/
def setFree (sock i : Nat) (s : BinClientA) : BinClientA :=
  { s with freeConnections := s.freeConnections.insert sock i }

/-- `BinClientA::onWrite`. -/
def onWrite (sock : Nat) (r : SendResult) (dialed : Option Dialed) (s : BinClientA) : BinClientA :=
  match s.connections[sock]? with
  | none => s
  | some i =>
      let c := s.conn i
      if c.state = .active then
        if c.sendBuffer.length = 0 then
          match s.newRequests with
          | req :: rest =>
              ({ s.addRequest i req with newRequests := rest }.performSend i r dialed).collect
          -- nothing to send: the connection is free
          | [] => (s.setFree sock i).collect
        else (s.performSend i r dialed).collect
      -- the handshake is still awaited
      else if c.sendBuffer.length = 0 then ((s.setFree sock i).performSend i r dialed).collect
      else (s.performSend i r dialed).collect

/-- `BinClientA::onError`. -/
def onError (sock : Nat) (dialed : Option Dialed) (s : BinClientA) : BinClientA :=
  match s.connections[sock]? with
  | none => s
  | some i => (s.onLostConnection i dialed).collect

/-- `BinClientA::call`. -/
def call (pb : Protobuf) (c : Call) (s : BinClientA) : BinClientA :=
  let req : Request := ⟨s.issued.length, buildRequest pb c⟩
  { s with newRequests := s.newRequests ++ [req], issued := s.issued ++ [req] }

/-- `BinClientA::putRequestsToFreeConnections`: the first free connection that is active gets the request.
    If the send loses the connection, its entry is gone when it is erased. -/
def putRequestsToFreeConnections (r : SendResult) (dialed : Option Dialed) (s : BinClientA) : BinClientA :=
  match s.newRequests with
  | [] => s
  | req :: rest =>
      match s.freeConnections.toList.find? (fun p => (s.conn p.2).state = .active) with
      | none => s
      | some (sock, i) =>
          let s := ({ s with newRequests := rest }.addRequest i req).performSend i r dialed
          if s.freeConnections.contains sock then
            { s with freeConnections := s.freeConnections.erase sock }.collect
          else { s with undefined := true }

/-- `BinClientA::checkKeepAlive` over the connections of the table; the first exception ends it. -/
def checkKeepAlive (now : Nat) (r : Nat → SendResult) : List (Nat × Nat) → BinClientA → BinClientA
  | [], s => s
  | (sock, i) :: rest, s =>
      match (s.conn i).checkKeepAlive now (r sock) with
      | (c, some _) => s.setConn i c
      | (c, none) => (s.setConn i c).checkKeepAlive now r rest

/-! ## Steps -/

/-- What the environment gives a step: the user's call, or the socket and what the system calls return. -/
inductive Input where
  | call (c : Call)
  | handleEvents (dialed : Option Dialed) (put : SendResult) (redialed : Option Dialed) (now : Nat)
      (keepalive : Nat → SendResult)
  | read (sock : Nat) (junk : Junk) (rs : List RecvResult) (redialed : Option Dialed)
  | write (sock : Nat) (r : SendResult) (redialed : Option Dialed)
  | error (sock : Nat) (redialed : Option Dialed)

/-- `BinClientA::handleEvents` up to the call of the watcher. An exception skips the rest. -/
def handleEvents (dialed : Option Dialed) (put : SendResult) (redialed : Option Dialed) (now : Nat)
    (keepalive : Nat → SendResult) (s : BinClientA) : BinClientA :=
  let (s, thrown) :=
    if s.connections.size < s.maxConnections then s.establishNewConnection dialed else (s, none)
  if thrown.isSome then s
  else
    let s := s.collect.putRequestsToFreeConnections put redialed
    if s.undefined then s else s.checkKeepAlive now keepalive s.connections.toList

/-- One step. -/
def step (pb : Protobuf) (s : BinClientA) (input : Input) : Option BinClientA :=
  if s.undefined then none
  else
    match input with
    | .call c => some (s.call pb c)
    | .handleEvents dialed put redialed now keepalive =>
        some (s.handleEvents dialed put redialed now keepalive)
    | .read sock junk rs redialed => some (s.onRead sock junk rs redialed)
    | .write sock r redialed => some (s.onWrite sock r redialed)
    | .error sock redialed => some (s.onError sock redialed)

/-- A run. -/
def run (pb : Protobuf) : BinClientA → List Input → Option BinClientA := Lib.run (step pb)

/-- `reinitConnections`, over the results of the attempts to connect. -/
def reinitConnections : List (Option Dialed) → BinClientA → BinClientA × Option ConnEx
  | [], s => (s, none)
  | dialed :: rest, s =>
      match s.establishNewConnection dialed with
      | (s, some e) => (s, some e)
      | (s, none) => s.reinitConnections rest

/-- The constructor: one attempt to connect for each of `maxConnections`. There is no client if a first
    send throws, or if no connection comes about. -/
def new (attempts : List (Option Dialed)) : Option BinClientA :=
  match reinitConnections attempts ⟨fun _ => ⟨(Connection.new 0 0 .again).1, [], []⟩, 0, ∅, ∅, [],
      attempts.length, [], [], false⟩ with
  | (_, some _) => none
  | (s, none) => if s.connections.size = 0 then none else some s

/-- The end of `m_free_connections`. -/
def clearFree (s : BinClientA) : BinClientA := collect { s with freeConnections := ∅ }

/-- The end of `m_connections`. -/
def clearConnections (s : BinClientA) : BinClientA := collect { s with connections := ∅ }

/-- The destructor: its members go in the order opposite to their declaration, the new requests first. -/
def destroy (s : BinClientA) : BinClientA := { s with newRequests := [] }.clearFree.clearConnections

end BinClientA

end BinClient
end Hiaux
