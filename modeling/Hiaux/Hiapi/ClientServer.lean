import Hiaux.BinClient.Correctness.Delivery
import Hiaux.Hiapi.Exchange

/-!
# `Hiapi.ClientServer` — a client connection and the server at its other end

A connection of the client, from its first send on, and the connection of the server at the same socket,
with all that the server does besides. The steps of both sides come in any order. What TCP promises is a
condition on the inputs (`Allowed`): each side receives a beginning of what the socket of the other has taken.
-/

namespace Hiaux
namespace Hiapi

open Lib Network HttpServer

/-- The two sides. -/
structure ClientServer (PS : Type) where
  session : BinClient.Session
  exchange : Exchange PS BinServer.Parser (Option BinServer.Request)

namespace ClientServer

variable {PS : Type}

/-- What happens on one of the sides. -/
inductive Input where
  | client (op : BinClient.Op)
  | server (input : Server.Input)

/-- A server on which nothing has happened, and a client connection whose socket has taken `n` bytes. -/
def init (lib : Library PS BinServer.Parser (Option BinServer.Request)) (listenSock sock now n : Nat) :
    ClientServer PS :=
  ⟨.new sock now n, .init lib listenSock⟩

/-- One step; the client's connection is the one at `i` on the server. -/
def step (lib : Library PS BinServer.Parser (Option BinServer.Request)) (i : Nat) (s : ClientServer PS) :
    Input → Option (ClientServer PS)
  | .client op => (s.session.step op).map fun session => { s with session := session }
  | .server input => (s.exchange.step lib i input).map fun exchange => { s with exchange := exchange }

/-- A run. -/
def run (lib : Library PS BinServer.Parser (Option BinServer.Request)) (i : Nat) :
    ClientServer PS → List Input → Option (ClientServer PS) :=
  Lib.run (step lib i)

/-- What the network, the handlers and the users of the client promise of an input. -/
def Allowed (lib : Library PS BinServer.Parser (Option BinServer.Request))
    (answer : Nat → Option BinServer.Request → Bytes) (i : Nat) (s : ClientServer PS) : Input → Prop
  | .client (.addRequest req) => req.data.length ≤ BinServer.binrequestMaxSize
  | .client (.performRecv _ rs) =>
      s.session.received ++ BinClient.arrived rs <+: (s.exchange.server.conn i).accepted
  | .client _ => True
  | .server input =>
      s.exchange.Allowed lib answer i input ∧
        s.exchange.fed ++ Exchange.bytesRead i s.exchange.server input <+: s.session.conn.accepted

end ClientServer

end Hiapi
end Hiaux
