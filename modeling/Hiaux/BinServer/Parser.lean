import Hiaux.Lib.Reader
import Hiaux.Strings.Numbers
import Hiaux.BinClient.Request

/-!
# `BinServer.Parser` — the server's request parser

The server side of the binary protocol: frames `<decimal size> "\n" <request>`, with keep-alive bytes `'k'`
between them. `parse` is a real loop here: a keep-alive byte is dropped and the body starts over with
`continue`; every other path through the body returns or throws.
-/

namespace Hiaux
namespace BinServer

open Lib Strings BinClient

/-- `HIAPI_BINREQUEST_MAX_SIZE`. -/
def binrequestMaxSize : Nat := 1024 * 1024 * 3

/-- The keep-alive byte, as `parse` compares it. -/
def keepaliveByte : UInt8 := 107

/-- `server::Request`. -/
structure Request where
  method : Bytes
  params : StrMap
  dump : Bytes

/-- `Request::Request`: the parameters are assigned into the map one by one, a later one overriding. -/
def Request.ofDump (pb : Protobuf) (dump : Bytes) : Request :=
  let m := pb.parseFromString dump
  { method := m.method
    params := m.params.foldl (fun acc kv => acc.insert kv.1 kv.2) ∅
    dump := dump }

/-- `Parser::State`. -/
inductive ParserState where
  | readingSize
  | readingMessage
deriving DecidableEq, Repr

/-- The exception `parse` throws. -/
inductive ParserEx where
  | requestParsingEx
deriving DecidableEq, Repr

/-- `server::Parser`; `curRequest` is a shared pointer, null at first. -/
structure Parser where
  state : ParserState
  curToken : Bytes
  size : Nat
  curRequest : Option Request
  gotRequest : Bool

namespace Parser

variable (pb : Protobuf) (junk : Junk)

/-- The constructor. -/
def init : Parser :=
  { state := .readingSize, curToken := [], size := 0, curRequest := none, gotRequest := false }

/-- The `READING_MESSAGE` block, which ends the call. -/
def readMessage (p : Parser) : Parser :=
  if p.state = .readingMessage ∧ p.size ≤ p.curToken.length then
    let curReqStr := substr p.curToken 0 p.size
    { p with
      curRequest := some (Request.ofDump pb curReqStr)
      gotRequest := true
      curToken := substr p.curToken curReqStr.length (p.curToken.length - curReqStr.length)
      state := .readingSize }
  else p

/-- The `READING_SIZE` block after the keep-alive test, and what follows it. -/
def readSize (p : Parser) : Parser × Option ParserEx :=
  if p.state = .readingSize then
    match find newline p.curToken with
    | none => (p, none)
    | some endlpos =>
        let sizeStr := substr p.curToken 0 endlpos
        let rest := substr p.curToken (sizeStr.length + 1) (p.curToken.length - sizeStr.length + 1)
        let size := stringToUint64 (junk rest) sizeStr
        if size > binrequestMaxSize then
          ({ p with curToken := rest, size := size }, some .requestParsingEx)
        else
          (readMessage pb { p with curToken := rest, size := size, state := .readingMessage }, none)
  else (readMessage pb p, none)

/-- At most `fuel` rounds of the loop in `parse`. -/
def parseLoop : Nat → Parser → Parser × Option ParserEx
  | 0, p => (p, none)
  | fuel + 1, p =>
      if p.curToken.length = 0 then (p, none)
      else if p.state = .readingSize ∧ p.curToken.head? = some keepaliveByte then
        if p.curToken.length = 1 then ({ p with curToken := [] }, none)
        else parseLoop fuel { p with curToken := substr p.curToken 1 (p.curToken.length - 1) }
      else readSize pb junk p

/-- `Parser::parse`: a round that goes on has dropped a byte, so the buffer's length bounds the rounds. -/
def parse (p : Parser) : Parser × Option ParserEx := parseLoop pb junk (p.curToken.length + 1) p

/-- `Parser::execute`. -/
def execute (p : Parser) (d : Bytes) : Parser × Option ParserEx :=
  parse pb junk { p with curToken := p.curToken ++ d }

/-- `Parser::hasRequest`. -/
def hasRequest (p : Parser) : Bool := p.gotRequest

/-- `Parser::getRequest`. -/
def getRequest (p : Parser) : Option Request × Parser × Option ParserEx :=
  (p.curRequest, parse pb junk { p with gotRequest := false })

/-- The parser as `HttpConnection::performRecv` uses it: `execute`, then
    `while (hasRequest()) custom_requests.push(getRequest())`. -/
def reader : Reader Parser UInt8 (Option Request) ParserEx where
  execute := execute pb junk
  has := hasRequest
  get := getRequest pb junk
  rounds p := p.curToken.length + 1

/-- `execute` and drain, chunk after chunk. -/
def receiveAll (p : Parser) (cs : List Chunk) : Drained Parser (Option Request) ParserEx :=
  Reader.receiveAll p (cs.map (fun c => (reader pb c.junk, c.bytes)))

end Parser

end BinServer
end Hiaux
