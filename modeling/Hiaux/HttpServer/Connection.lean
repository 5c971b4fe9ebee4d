import Hiaux.Lib.Reader
import Hiaux.HttpServer.ConnectionParsing
import Hiaux.Network.Socket

/-!
# `HttpServer.Connection` — one connection of the HTTP server

`HttpConnection` reads requests, queues the rendered responses and sends them one at a time. What it is
linked against is a parameter (`Library`): `http_parser`, which turns received bytes into callbacks, and
the parsers of the custom protocols a connection may be upgraded to. The socket answers as in
`Network.Socket`. `accepted` is what the peer can see: the bytes the socket has taken.
-/

namespace Hiaux
namespace HttpServer

open Lib Strings Network

/-- `ResponseInfo`. -/
structure ResponseInfo where
  contentType : Bytes
  serverName : Bytes
deriving DecidableEq, Repr

/-- `HttpResponse`. -/
structure HttpResponse where
  code : Int
  body : Bytes
  headers : List Bytes
deriving DecidableEq, Repr

/-- `CustomProtocolInfo`, without the request handler. The parser builder may return no parser. -/
structure CustomProtocolInfo (CP : Type) where
  parserBuilder : HttpRequest → Option CP
  handshakeMessage : Bytes

/-- What the server is linked against and configured with: `PS` is the state of `http_parser`, `CP` a
    custom parser and `CR` a custom request. -/
structure Library (PS CP CR : Type) where
  curlUnescape : Bytes → Bytes
  httpParserInit : PS
  httpParserExecute : PS → Bytes → PS × List Callback
  customParser : Reader CP UInt8 CR Unit
  respInfo : ResponseInfo
  customProtocols : Bytes → Option (CustomProtocolInfo CP)

/-- `HttpConnection`. -/
structure HttpConnection (PS CP CR : Type) where
  sock : Nat
  createTs : Nat
  lastActivityTs : Nat
  alive : Bool
  everSent : Bool
  customProtocol : Bool
  customProtocolId : Bytes
  waitingLastHandling : Bool
  assembly : Assembly
  httpRequests : List HttpRequest
  customRequests : List CR
  resHeaders : List Bytes
  resps : List Bytes
  sendBuffer : Bytes
  parser : PS
  customParser : Option CP
  accepted : Bytes

namespace HttpConnection

variable {PS CP CR : Type}

/-- The constructor. -/
def new (lib : Library PS CP CR) (sock now : Nat) : HttpConnection PS CP CR where
  sock := sock
  createTs := now
  lastActivityTs := now
  alive := true
  everSent := false
  customProtocol := false
  customProtocolId := []
  waitingLastHandling := false
  assembly := ⟨.new, [], true, false⟩
  httpRequests := []
  customRequests := []
  resHeaders := []
  resps := []
  sendBuffer := []
  parser := lib.httpParserInit
  customParser := none
  accepted := []

/-- Seconds since `ts`, as the unsigned subtraction gives them. -/
def elapsed (now ts : Nat) : Nat := (now + 2 ^ 64 - ts) % 2 ^ 64

/-- `HttpConnection::notDead`. -/
def notDead (now : Nat) (c : HttpConnection PS CP CR) : Bool :=
  c.alive && (elapsed now c.createTs ≤ 2 || (c.customProtocol && elapsed now c.lastActivityTs < 60))

/-! ## Responses -/

/-- `HttpConnection::addHeader`. -/
def addHeader (header : Bytes) (c : HttpConnection PS CP CR) : HttpConnection PS CP CR :=
  { c with resHeaders := c.resHeaders ++ [header] }

/-- The header of a cookie. -/
def cookieHeader (name value : Bytes) : Bytes :=
  ascii "Set-Cookie: " ++ name ++ ascii "=" ++ value ++ ascii "; expires=Sat, 31 Dec 2039 23:59:59 GMT"

/-- `HttpConnection::setCookie`. -/
def setCookie (name value : Bytes) (c : HttpConnection PS CP CR) : HttpConnection PS CP CR :=
  { c with resHeaders := c.resHeaders ++ [cookieHeader name value] }

/-- A `size_t` converted to `int`. -/
def toInt (n : Nat) : Int := if n % 2 ^ 32 < 2 ^ 31 then (n % 2 ^ 32 : Nat) else (n % 2 ^ 32 : Nat) - 2 ^ 32

/-- What `%d` prints. -/
def decimalInt (i : Int) : Bytes := if i < 0 then 45 :: decimal i.natAbs else decimal i.natAbs

/-- A line of a response. -/
def line (s : Bytes) : Bytes := s ++ ascii "\r\n"

/-- `HttpConnection::renderResponse`. -/
def renderResponse (info : ResponseInfo) (now : Nat) (resp : HttpResponse) (c : HttpConnection PS CP CR) :
    Bytes :=
  line (ascii "HTTP/1.1 " ++ decimalInt resp.code) ++
    line (ascii "Content-Type: " ++ info.contentType) ++
    line (ascii "Date: " ++ decimalInt (toInt now)) ++
    line (ascii "Server: " ++ info.serverName) ++
    line (if c.assembly.keepalive then ascii "Connection: Keep-Alive" else ascii "Connection: close") ++
    line (ascii "Transfer-Encoding: none") ++
    (resp.headers.map line).flatten ++ (c.resHeaders.map line).flatten ++
    line (ascii "Content-Length: " ++ decimalInt (toInt resp.body.length)) ++ ascii "\r\n" ++ resp.body

/-- `HttpConnection::addResponse`. -/
def addResponse (info : ResponseInfo) (now : Nat) (resp : HttpResponse) (c : HttpConnection PS CP CR) :
    HttpConnection PS CP CR :=
  { c with resps := c.resps ++ [renderResponse info now resp c] }

/-- `HttpConnection::addCustomResponse`. -/
def addCustomResponse (resp : Bytes) (c : HttpConnection PS CP CR) : HttpConnection PS CP CR :=
  { c with resps := c.resps ++ [resp] }

/-! ## Sending -/

/-- The call of `::send` and what follows it. A send that takes nothing leaves `errno` as it was: whether
    it counts as a full socket or as an error is then up to the environment (`again`, `fatal`). -/
def sendBuffered (r : SendResult) (now : Nat) (c : HttpConnection PS CP CR) :
    HttpConnection PS CP CR × Bool :=
  match r with
  | .fatal => ({ c with everSent := true, alive := false }, false)
  | .again => ({ c with everSent := true }, false)
  | .accepted n =>
      let nsent := taken n c.sendBuffer.length
      let accepted := c.accepted ++ c.sendBuffer.take nsent
      if nsent = 0 then ({ c with everSent := true }, false)
      else if nsent < c.sendBuffer.length then
        ({ c with
          everSent := true
          lastActivityTs := now
          sendBuffer := substr c.sendBuffer nsent (c.sendBuffer.length - nsent)
          accepted := accepted }, false)
      else
        ({ c with everSent := true, lastActivityTs := now, sendBuffer := [], accepted := accepted }, true)

/-- `HttpConnection::performSend`: whether the buffer has been sent completely. -/
def performSend (r : SendResult) (now : Nat) (c : HttpConnection PS CP CR) :
    HttpConnection PS CP CR × Bool :=
  if c.sendBuffer.length = 0 then
    if c.everSent ∧ ¬ c.assembly.keepalive then ({ c with alive := false }, false)
    else
      match c.resps with
      | [] => (c, false)
      | resp :: rest => sendBuffered r now { c with sendBuffer := resp, resps := rest }
  else sendBuffered r now c

/-! ## Receiving -/

/-- The receive loop: the bytes read up to `EAGAIN`, or `none` when the peer has closed or the call has
    failed; an interrupted call (`EINTR`) counts as failed. -/
def recvLoop : Bytes → List RecvResult → Option Bytes
  | readbf, [] => some readbf
  | readbf, .data d :: rs => recvLoop (readbf ++ d) rs
  | readbf, .again :: _ => some readbf
  | _, .interrupted :: _ => none
  | _, .fatal :: _ => none
  | _, .closed :: _ => none

/-- `performRecv` once the bytes are read, for a connection that is not upgraded. -/
def receiveHttp (lib : Library PS CP CR) (now : Nat) (readbf : Bytes) (c : HttpConnection PS CP CR) :
    HttpConnection PS CP CR :=
  let c :=
    if readbf.length > 0 then
      let (ps, cbs) := lib.httpParserExecute c.parser readbf
      { c with
        lastActivityTs := now, parser := ps, assembly := c.assembly.callbacks lib.curlUnescape cbs }
    else c
  if c.assembly.requestFinished then
    { c with
      httpRequests := c.httpRequests ++ [c.assembly.curHttpRequest]
      assembly := { c.assembly with curHttpRequest := .new, requestFinished := false } }
  else c

/-- `performRecv` once the bytes are read, for an upgraded connection; also whether the custom parser has
    thrown. -/
def receiveCustom (lib : Library PS CP CR) (now : Nat) (readbf : Bytes) (cp : CP)
    (c : HttpConnection PS CP CR) : HttpConnection PS CP CR × Bool :=
  let r := if readbf.length > 0 then lib.customParser.receive cp readbf else lib.customParser.drain cp
  ({ c with
    lastActivityTs := if readbf.length > 0 then now else c.lastActivityTs
    customParser := some r.reader
    customRequests := c.customRequests ++ r.outputs }, r.thrown.isSome)

/-- `HttpConnection::performRecv`. An upgraded connection has a custom parser. -/
def performRecv (lib : Library PS CP CR) (rs : List RecvResult) (now : Nat) (c : HttpConnection PS CP CR) :
    HttpConnection PS CP CR × Bool :=
  match recvLoop [] rs with
  | none => ({ c with alive := false }, false)
  | some readbf =>
      if c.customProtocol then
        match c.customParser with
        | none => (c, false)
        | some cp => receiveCustom lib now readbf cp c
      else (receiveHttp lib now readbf c, false)

end HttpConnection

end HttpServer
end Hiaux
