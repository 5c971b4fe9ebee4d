import Hiaux.BinClient.Connection
import Hiaux.BinServer.Parser
import Hiaux.HttpServer.Correctness.Intake

/-!
# `Hiapi.Exchange` — a server that speaks the binary protocol

An `HttpServer` speaks the binary protocol when it has been given `hiapi::server::Parser` and the handshake
under the name that the client asks for in its upgrade request (`Speaks`). Beside the server, an `Exchange`
keeps what goes through one of its connections: the bytes read from the socket, and the requests taken from
the connection's queue for the handler of the protocol.

The handler answers the `k`-th request of the connection with the frame of `answer k request`, before it
returns or later, from any thread (`Honest`).
-/

namespace Hiaux
namespace Hiapi

open Lib Network HttpServer

/-! ## The protocol -/

/-- The server's parser as a custom parser: the server catches every exception, whatever it says. -/
def customParser (pb : BinClient.Protobuf) (junk : Strings.Junk) :
    Reader BinServer.Parser UInt8 (Option BinServer.Request) Unit :=
  (BinServer.Parser.reader pb junk).mapThrown fun _ => ()

/-- A server with `addCustomProtocol("hiapi", ..)`. Of `http_parser` this takes that it reads the client's
    upgrade request, given to it in one piece, with nothing but keep-alive bytes behind it. -/
structure Speaks {PS : Type} (pb : BinClient.Protobuf)
    (lib : Library PS BinServer.Parser (Option BinServer.Request)) : Prop where
  parser : ∃ junk, lib.customParser = customParser pb junk
  protocol : lib.customProtocols (ascii "hiapi") = some ⟨fun _ => some .init, BinClient.handshakeMessage⟩
  upgrade : ∀ keepalives : Bytes, (∀ b ∈ keepalives, b = BinServer.keepaliveByte) →
    let a := (HttpConnection.new lib 0 0).assembly.callbacks lib.curlUnescape
      (lib.httpParserExecute lib.httpParserInit (BinClient.upgradeRequest ++ keepalives)).2
    a.requestFinished = true ∧ a.curHttpRequest.headers[ascii "Upgrade"]? = some (ascii "hiapi")

/-! ## One connection of the server -/

/-- A server, and what has gone through its connection at one address: the bytes read from the socket, and
    the requests taken from its queue. -/
structure Exchange (PS CP CR : Type) where
  server : Server PS CP CR
  fed : Bytes
  handed : List CR

namespace Exchange

variable {PS CP CR : Type}

/-- A server on which nothing has happened. -/
def init (lib : Library PS CP CR) (listenSock : Nat) : Exchange PS CP CR := ⟨.init lib listenSock, [], []⟩

/-- The bytes that an input reads from the connection at `i`. What is collected before the stream ends or
    fails is lost. -/
def bytesRead (i : Nat) (s : Server PS CP CR) : Server.Input → Bytes
  | .read rs now out =>
      if s.subject (.read rs now out) = some i then (HttpConnection.recvLoop [] rs).getD [] else []
  | _ => []

/-- The custom requests that wait on the connection at `i` when an input comes to dispatch the next one. -/
def queue (lib : Library PS CP CR) (i : Nat) (s : Server PS CP CR) : Server.Input → List CR
  | .read rs now out =>
      if s.subject (.read rs now out) = some i then ((s.conn i).performRecv lib rs now).1.customRequests
      else (s.conn i).customRequests
  | _ => (s.conn i).customRequests

/-- A step of the server; what has left the queue has been taken for the handler. -/
def step (lib : Library PS CP CR) (i : Nat) (x : Exchange PS CP CR) (input : Server.Input) :
    Option (Exchange PS CP CR) :=
  (x.server.step lib input).map fun t =>
    let waiting := queue lib i x.server input
    { server := t
      fed := x.fed ++ bytesRead i x.server input
      handed := x.handed ++ waiting.take (waiting.length - (t.conn i).customRequests.length) }

/-- A run. -/
def run (lib : Library PS CP CR) (i : Nat) : Exchange PS CP CR → List Server.Input → Option (Exchange PS CP CR) :=
  Lib.run (step lib i)

/-! ## What the environment promises -/

/-- The handler answers the `k`-th request with the frame of `answer k request`. -/
def Honest (lib : Library PS CP CR) (answer : Nat → CR → Bytes) (i : Nat) (x : Exchange PS CP CR) :
    Server.Input → Prop
  | .read rs now out =>
      x.server.subject (.read rs now out) = some i →
        ∀ request ∈ (queue lib i x.server (.read rs now out)).head?, ∀ r ∈ out.replies,
          r = .custom (frame (answer x.handed.length request))
  | .drain r now out =>
      x.server.subject (.drain r now out) = some i →
        ∀ request ∈ (queue lib i x.server (.drain r now out)).head?, ∀ r ∈ out.replies,
          r = .custom (frame (answer x.handed.length request))
  | .answer j k r =>
      j = i → ∀ n request, k = n + 1 → x.handed[n]? = some request → r = .custom (frame (answer n request))
  | _ => True

/-- The upgrade request is read in one piece, with nothing but keep-alive bytes behind it. -/
def Upgrades (i : Nat) (x : Exchange PS CP CR) (input : Server.Input) : Prop :=
  x.fed = [] → bytesRead i x.server input ≠ [] →
    ∃ keepalives : Bytes, (∀ b ∈ keepalives, b = BinServer.keepaliveByte) ∧
      bytesRead i x.server input = BinClient.upgradeRequest ++ keepalives

/-- What the kernel, the handlers and the peer promise of an input. -/
structure Allowed (lib : Library PS CP CR) (answer : Nat → CR → Bytes) (i : Nat) (x : Exchange PS CP CR)
    (input : Server.Input) : Prop where
  server : x.server.Allowed input
  honest : Honest lib answer i x input
  upgrades : Upgrades i x input

end Exchange

end Hiapi
end Hiaux
