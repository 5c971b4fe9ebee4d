import Hiaux.Lib.Reader
import Hiaux.Strings.Numbers

/-!
# `BinClient.Parser` — the client's response parser

`ResponseParser` turns the bytes received from the server into responses: first the handshake, then frames
of the form `<decimal size> "\n" <message>`. It is re-entered from `execute` (new bytes) and from
`getResponse` (the response slot has been emptied).

`parse` is a `while (true)` whose body is three blocks that fall through into each other. Every path
through the body ends in a `return` or a `throw`, so the loop never goes round; the blocks are the
definitions `readMessage`, `readSize` and `parse`, each ending where the source falls into the next one.

The size line is read with `string_to_uint64`, whose result is the content of an uninitialised local when
the line has no digit; `Junk` says what that local holds.
-/

namespace Hiaux
namespace BinClient

open Lib Strings

/-- `HIAPI_HANDSHAKE`. -/
def handshakeMessage : Bytes := ascii "hiapi_connected"

/-- `MESSAGE_SIZE_LIMIT`. -/
def messageSizeLimit : Nat := 1024 * 1024

/-- `ResponseParser::State`. -/
inductive ParserState where
  | readingHandshake
  | readingSize
  | readingMessage
deriving DecidableEq, Repr

/-- The exceptions `parse` throws. -/
inductive ParserEx where
  | cannotHandShakeEx
  | responseParsingEx
deriving DecidableEq, Repr

/-- `ResponseParser`. The callback `m_onHandshaked` is represented by the number of calls made to it. -/
structure ResponseParser where
  state : ParserState
  curToken : Bytes
  size : Nat
  curResponse : Bytes
  gotResponse : Bool
  handshakedCalls : Nat
deriving DecidableEq, Repr

namespace ResponseParser

/-- The constructor. `m_size` is not initialised; no state reads it before it is set. -/
def init : ResponseParser :=
  { state := .readingHandshake, curToken := [], size := 0, curResponse := [], gotResponse := false,
    handshakedCalls := 0 }

/-- The `READING_MESSAGE` block, which ends the pass. -/
def readMessage (p : ResponseParser) : ResponseParser :=
  if p.state = .readingMessage ∧ p.size ≤ p.curToken.length then
    let resp := substr p.curToken 0 p.size
    { p with
      curResponse := resp
      gotResponse := true
      curToken := substr p.curToken resp.length (p.curToken.length - resp.length)
      state := .readingSize }
  else p

/-- The `READING_SIZE` block and what follows it. -/
def readSize (junk : Junk) (p : ResponseParser) : ResponseParser × Option ParserEx :=
  if p.state = .readingSize then
    match find newline p.curToken with
    | none => (p, none)
    | some endlpos =>
        let sizeStr := substr p.curToken 0 endlpos
        let rest := substr p.curToken (sizeStr.length + 1) (p.curToken.length - sizeStr.length + 1)
        let size := stringToUint64 (junk rest) sizeStr
        if size > messageSizeLimit then
          ({ p with curToken := rest, size := size }, some .responseParsingEx)
        else
          (readMessage { p with curToken := rest, size := size, state := .readingMessage }, none)
  else (readMessage p, none)

/-- `ResponseParser::parse`, with the exception it throws if it does. -/
def parse (junk : Junk) (p : ResponseParser) : ResponseParser × Option ParserEx :=
  if p.curToken.length = 0 then (p, none)
  else if p.state = .readingHandshake then
    if handshakeMessage.length ≤ p.curToken.length then
      let handshake := substr p.curToken 0 handshakeMessage.length
      let rest := substr p.curToken handshakeMessage.length (p.curToken.length - handshakeMessage.length)
      if handshake ≠ handshakeMessage then
        ({ p with curToken := rest }, some .cannotHandShakeEx)
      else
        readSize junk { p with
          curToken := rest
          state := .readingSize
          handshakedCalls := p.handshakedCalls + 1 }
    else (p, none)
  else readSize junk p

/-- `ResponseParser::execute`. -/
def execute (junk : Junk) (p : ResponseParser) (d : Bytes) : ResponseParser × Option ParserEx :=
  parse junk { p with curToken := p.curToken ++ d }

/-- `ResponseParser::hasResponse`. -/
def hasResponse (p : ResponseParser) : Bool := p.gotResponse

/-- `ResponseParser::getResponse`: the response handed out, and the parser after the parse that follows. -/
def getResponse (junk : Junk) (p : ResponseParser) : Bytes × ResponseParser × Option ParserEx :=
  (p.curResponse, parse junk { p with gotResponse := false })

/-- The parser as its caller uses it: `Connection::performRecv` calls `execute` and then
    `while (hasResponse()) { getResponse(resp); onResponse(resp); }`. -/
def reader (junk : Junk) : Reader ResponseParser UInt8 Bytes ParserEx where
  execute := execute junk
  has := hasResponse
  get := getResponse junk
  rounds p := p.curToken.length + 1

/-- `execute` and drain, chunk after chunk. -/
def receiveAll (p : ResponseParser) (cs : List Chunk) : Drained ResponseParser Bytes ParserEx :=
  Reader.receiveAll p (cs.map (fun c => (reader c.junk, c.bytes)))

end ResponseParser

end BinClient
end Hiaux
