import Hiaux.HttpServer.Server

/-!
# `HttpServer.Program` — a server and the handlers that keep its connections

A connection is shared: the table, the response queues and the handlers hold pointers to it, and it closes
its descriptor when the last of them is dropped. A handler gets a pointer with each request it is called
with. It may copy it, drop it, and answer through it at any time and any number of times.

The kernel gives an accepted connection a descriptor that is not open (`Free`). So a number may come back as
soon as the connection that had it is gone, but not before.
-/

namespace Hiaux
namespace HttpServer

open Lib Network

/-- A server that listens on `listenSock`, and how many pointers its handlers have to each connection. -/
structure Program (PS CP CR : Type) where
  listenSock : Nat
  server : Server PS CP CR
  pointers : Nat → Nat

namespace Program

variable {PS CP CR : Type}

/-- No connection yet. -/
def init (lib : Library PS CP CR) (listenSock : Nat) : Program PS CP CR :=
  ⟨listenSock, .init lib listenSock, fun _ => 0⟩

/-- What happens: the event loop goes on; a handler answers through a pointer it has, copies it, or drops
    it; or it gives the pointer to `HttpServer::sendResponse`. -/
inductive Input where
  | loop (input : Server.Input)
  | reply (conn request : Nat) (r : Reply)
  | sendResponse (conn request : Nat) (resp : HttpResponse)
  | copy (conn : Nat)
  | drop (conn : Nat)

/-- A descriptor that is not open: not the listening one, and not that of a connection in the table, in a
    queue, or with a handler. -/
def Free (p : Program PS CP CR) (sock : Nat) : Prop :=
  sock ≠ p.listenSock ∧
  (∀ si ∈ p.server.readingConnections.toList, (p.server.conn si.2).sock ≠ sock) ∧
  (∀ q ∈ p.server.respQueue, (p.server.conn q.conn).sock ≠ sock) ∧
  (∀ q ∈ p.server.customRespQueue, (p.server.conn q.conn).sock ≠ sock) ∧
  ∀ i < p.server.allocated, 0 < p.pointers i → (p.server.conn i).sock ≠ sock

instance (p : Program PS CP CR) (sock : Nat) : Decidable (p.Free sock) :=
  inferInstanceAs (Decidable (_ ∧ _ ∧ _ ∧ _ ∧ _))

/-- What the loop may be given: accepted descriptors are not open. Answers from outside the loop come
    through pointers. -/
def Admissible (p : Program PS CP CR) : Server.Input → Prop
  | .accept socks _ => socks.Nodup ∧ ∀ sock ∈ socks, p.Free sock
  | .answer _ _ _ => False
  | _ => True

instance (p : Program PS CP CR) (input : Server.Input) : Decidable (p.Admissible input) := by
  cases input
  case accept socks now => exact inferInstanceAs (Decidable (_ ∧ ∀ sock ∈ socks, p.Free sock))
  case answer => exact instDecidableFalse
  all_goals exact instDecidableTrue

/-- After a step of the loop: each dispatch has given a handler a pointer. -/
def advance (p : Program PS CP CR) (t : Server PS CP CR) : Program PS CP CR where
  listenSock := p.listenSock
  server := t
  pointers := fun i => p.pointers i + ((t.objects i).dispatched - (p.server.objects i).dispatched)

/-- One step; `none` when the input does not fit. -/
def step (lib : Library PS CP CR) (p : Program PS CP CR) : Input → Option (Program PS CP CR)
  | .loop input => if p.Admissible input then (p.server.step lib input).map p.advance else none
  | .reply i k r =>
      if 0 < p.pointers i ∧ p.server.undefined = false ∧ p.server.blocked r = false then
        some { p with server := p.server.reply i k r }
      else none
  | .sendResponse i k resp =>
      if 0 < p.pointers i ∧ p.server.undefined = false then
        some { p with server := p.server.sendResponse i k resp }
      else none
  | .copy i =>
      if 0 < p.pointers i then some { p with pointers := Function.update p.pointers i (p.pointers i + 1) }
      else none
  | .drop i =>
      if 0 < p.pointers i then some { p with pointers := Function.update p.pointers i (p.pointers i - 1) }
      else none

/-- A run: each input fits. -/
def run (lib : Library PS CP CR) : Program PS CP CR → List Input → Option (Program PS CP CR) :=
  Lib.run (step lib)

/-! ## A clean-up that goes on

Once the clean-up has advanced an iterator to an erased entry, that iterator may be anywhere. A run may still
be followed further if one leaves open which entries it reaches. -/

/-- A step that is defined, or a clean-up with the entries that its iterator reaches. -/
inductive Event where
  | input (input : Input)
  | cleanUp (reached : List Nat) (now : Nat)

/-- One step; `none` when the event does not fit, or the step is not defined. -/
def stepReaching (lib : Library PS CP CR) (p : Program PS CP CR) : Event → Option (Program PS CP CR)
  | .input input => (p.step lib input).filter (fun p' => !p'.server.undefined)
  | .cleanUp reached now =>
      if p.server.phase = .draining ∧ p.server.respQueue = [] ∧ p.server.customRespQueue = [] then
        some { p with server := { p.server.cleanUpReached now reached with phase := .idle } }
      else none

/-- A run with such clean-ups. -/
def runReaching (lib : Library PS CP CR) : Program PS CP CR → List Event → Option (Program PS CP CR) :=
  Lib.run (stepReaching lib)

end Program

end HttpServer
end Hiaux
