import Hiaux.Lib.Framing
import Hiaux.Lib.Loop
import Hiaux.BinClient.Parser
import Hiaux.BinClient.Request
import Hiaux.Network.Socket

/-!
# `BinClient.Connection` — one client connection

The connection buffers what is to be sent, keeps the requests awaiting their response in the order in which
they were added, and feeds received bytes to the parser. The socket is the environment: a call of `send` or
`recv` is given its result. What the program cannot see but the peer can — the bytes the socket has
accepted — is the field `accepted`.
-/

namespace Hiaux
namespace BinClient

open Lib Strings Network

/-- `KEEPALIVE_MESSAGE`. -/
def keepaliveMessage : Bytes := ascii "k"

/-- The HTTP upgrade request the constructor puts in the send buffer. -/
def upgradeRequest : Bytes :=
  ascii "GET / HTTP/1.0\r\n" ++ ascii "Host: hiapi\r\n" ++ ascii "Connection: keep-alive\r\n" ++
    ascii "Upgrade: hiapi\r\n\r\n"

/-- `client::Request`: the serialized request; the callback is represented by the request's identity. -/
structure Request where
  id : Nat
  data : Bytes
deriving DecidableEq, Repr

/-- `Connection::State`. -/
inductive ConnState where
  | handshaking
  | active
  | terminating
deriving DecidableEq, Repr

/-- `Connection`. -/
structure Connection where
  sock : Nat
  state : ConnState
  parser : ResponseParser
  lastActivityTs : Nat
  keepalivePeriod : Nat
  sentRequests : List Request
  sendBuffer : Bytes
  accepted : Bytes
deriving DecidableEq, Repr

/-- The exceptions that leave a `Connection` method. `outOfRange` is what `substr` throws. -/
inductive ConnEx where
  | lostConnectionEx
  | outOfRange
  | parser (e : ParserEx)
deriving DecidableEq, Repr

namespace Connection

/-! ## Sending -/

/-- `Connection::performSend`. With a full socket (`EAGAIN`) it does not return: it goes on with
    `nsent == -1`, which as a `size_t` is neither the size of a string nor a position in it, and `substr`
    throws. -/
def performSend (r : SendResult) (c : Connection) : Connection × Option ConnEx :=
  if c.sendBuffer.length = 0 then (c, none)
  else
    match r with
    | .fatal => (c, some .lostConnectionEx)
    | .again => (c, some .outOfRange)
    | .accepted n =>
        let nsent := taken n c.sendBuffer.length
        let accepted := c.accepted ++ c.sendBuffer.take nsent
        if c.sendBuffer.length = nsent then ({ c with sendBuffer := [], accepted := accepted }, none)
        else
          ({ c with
            sendBuffer := substr c.sendBuffer nsent (c.sendBuffer.length - nsent)
            accepted := accepted }, none)

/-- The constructor: the upgrade request is buffered and a first send attempted. When that throws, the
    connection does not come into being. -/
def new (sock now : Nat) (r : SendResult) : Connection × Option ConnEx :=
  performSend r
    { sock := sock, state := .handshaking, parser := .init, lastActivityTs := now, keepalivePeriod := 5,
      sentRequests := [], sendBuffer := upgradeRequest, accepted := [] }

/-- `Connection::addRequest`. -/
def addRequest (req : Request) (c : Connection) : Connection :=
  { c with
    sentRequests := c.sentRequests ++ [req]
    sendBuffer := c.sendBuffer ++ frame req.data }

/-- `Connection::checkKeepAlive`; the difference of the timestamps is unsigned. -/
def checkKeepAlive (now : Nat) (r : SendResult) (c : Connection) : Connection × Option ConnEx :=
  if c.sendBuffer.length = 0 ∧ (now + 2 ^ 64 - c.lastActivityTs) % 2 ^ 64 > c.keepalivePeriod then
    performSend r { c with lastActivityTs := now, sendBuffer := c.sendBuffer ++ keepaliveMessage }
  else (c, none)

/-! ## Receiving -/

/-- What the receive loop ends with: the bytes read, an exception, or not at all — after `EINTR` the loop
    goes round without calling `recv` again, and finds the same result for ever. -/
inductive RecvOutcome where
  | bytes (b : Bytes)
  | lost
  | hang
deriving DecidableEq, Repr

/-- The receive loop. A kernel with nothing more to report reports `EAGAIN`. -/
def recvLoop : Bytes → List RecvResult → RecvOutcome
  | readbf, [] => .bytes readbf
  | readbf, .data d :: rs => recvLoop (readbf ++ d) rs
  | readbf, .again :: _ => .bytes readbf
  | _, .interrupted :: _ => .hang
  | _, .fatal :: _ => .lost
  | _, .closed :: _ => .lost

/-- What a call of `performRecv` did: the connection after it, the calls `onFinished(true, r)` it made, the
    exception it threw, and whether it read the front of an empty queue or never came back. -/
structure Received where
  conn : Connection
  finished : List (Request × Bytes)
  thrown : Option ConnEx
  undefined : Bool
deriving DecidableEq, Repr

/-- `onResponse` for each of the responses in turn: the front request is popped and finished. With no
    request left, the front of an empty queue is read. -/
def onResponses (c : Connection) : List Bytes → Received
  | [] => ⟨c, [], none, false⟩
  | resp :: resps =>
      match c.sentRequests with
      | [] => ⟨c, [], none, true⟩
      | req :: rest =>
          let r := onResponses { c with sentRequests := rest } resps
          { r with finished := (req, resp) :: r.finished }

/-- `m_parser.execute(readbf)` and the draining loop, as one receive of the parser. -/
def parsed (junk : Junk) (readbf : Bytes) (c : Connection) : Drained ResponseParser Bytes ParserEx :=
  if readbf.length > 0 then (ResponseParser.reader junk).receive c.parser readbf
  else (ResponseParser.reader junk).drain c.parser

/-- What `performRecv` does with the bytes read; `onHandshaked` makes the connection active. -/
def afterRecv (junk : Junk) (readbf : Bytes) (c : Connection) : Received :=
  let r := c.parsed junk readbf
  let state := if r.reader.handshakedCalls ≠ c.parser.handshakedCalls then .active else c.state
  let out := onResponses { c with parser := r.reader, state := state } r.outputs
  if out.undefined then out else { out with thrown := r.thrown.map ConnEx.parser }

/-- `Connection::performRecv`. -/
def performRecv (junk : Junk) (rs : List RecvResult) (c : Connection) : Received :=
  match recvLoop [] rs with
  | .bytes readbf => afterRecv junk readbf c
  | .lost => ⟨c, [], some .lostConnectionEx, false⟩
  | .hang => ⟨c, [], none, true⟩

/-- The responses a call of `performRecv` receives, whatever becomes of them. -/
def responses (junk : Junk) (rs : List RecvResult) (c : Connection) : List Bytes :=
  match recvLoop [] rs with
  | .bytes readbf => (c.parsed junk readbf).outputs
  | .lost => []
  | .hang => []

/-- `Connection::~Connection`: the requests left are finished with failure, in order. -/
def destroy (c : Connection) : List Request := c.sentRequests

/-! ## The receive loop, round by round -/

/-- The receive loop at `while (true)`: the bytes read, the result of the last `recv`, and the results of
    the calls of `recv` to come. -/
structure RecvLoop where
  readbf : Bytes
  nread : RecvResult
  coming : List RecvResult
deriving DecidableEq, Repr

namespace RecvLoop

/-- `nread = ::recv(..)`. A kernel with nothing more to report reports `EAGAIN`. -/
def recv (readbf : Bytes) : List RecvResult → RecvLoop
  | [] => ⟨readbf, .again, []⟩
  | r :: rs => ⟨readbf, r, rs⟩

/-- One round. The loop is left with the bytes read, by `break`, or with none, by `LostConnectionEx`, and
    with the results not taken. `continue` on `EINTR` goes round before the `recv` at the bottom, with
    `nread` and `errno` as they were. -/
def iterate (l : RecvLoop) : RecvLoop ⊕ Option Bytes × List RecvResult :=
  match l.nread with
  | .data d => .inl (recv (l.readbf ++ d) l.coming)
  | .again => .inr (some l.readbf, l.coming)
  | .interrupted => .inl l
  | .fatal => .inr (none, l.coming)
  | .closed => .inr (none, l.coming)

end RecvLoop

/-- `Connection::performRecv` given up after a number of rounds of its loop: what it did, and the results
    of `recv` it did not take. -/
def performRecvWithin (n : Nat) (junk : Junk) (rs : List RecvResult) (c : Connection) :
    Option (Received × List RecvResult) :=
  (Loop.within RecvLoop.iterate n (RecvLoop.recv [] rs)).map fun out =>
    match out.1 with
    | some readbf => (afterRecv junk readbf c, out.2)
    | none => (⟨c, [], some .lostConnectionEx, false⟩, out.2)

end Connection

end BinClient
end Hiaux
