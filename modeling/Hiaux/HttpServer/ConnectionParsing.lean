import Hiaux.Strings.StringUtils

/-!
# `HttpServer.ConnectionParsing` — assembling a request from parser callbacks

`http_parser` reports a message through callbacks, and `HttpConnection` fills the current `HttpRequest` from
them. A data callback is given a pointer into the read buffer and a length. `onUrl` ignores the length and
reads the buffer as a C string, so its model is given all the memory up to the end of the buffer; the
others copy the bytes and read the copy as a C string.
-/

namespace Hiaux
namespace HttpServer

open Lib Strings

/-- `HttpRequest`. -/
structure HttpRequest where
  url : Bytes
  path : Bytes
  headers : StrMap
  valuesGET : StrMap
  cookies : StrMap
  body : Bytes

/-- `new HttpRequest`. -/
def HttpRequest.new : HttpRequest := ⟨[], [], ∅, ∅, ∅, []⟩

/-- A call that `http_parser_execute` makes. The argument of `headersComplete` is what
    `http_should_keep_alive` answers at that moment. -/
inductive Callback where
  | messageBegin
  | url (memory : Bytes) (length : Nat)
  | status (bytes : Bytes)
  | headersField (bytes : Bytes)
  | headersValue (bytes : Bytes)
  | headersComplete (shouldKeepAlive : Bool)
  | body (bytes : Bytes)
  | messageComplete
deriving DecidableEq, Repr

/-- The part of an `HttpConnection` that the callbacks work on. -/
structure Assembly where
  curHttpRequest : HttpRequest
  curHeaderField : Bytes
  keepalive : Bool
  requestFinished : Bool

namespace Assembly

section

variable (curlUnescape : Bytes → Bytes)

/-- `HttpConnection::onUrl`: everything up to the first NUL, cut at the first space. -/
def onUrl (memory : Bytes) (_length : Nat) (a : Assembly) : Assembly :=
  let text := cStr memory
  let url := match find 32 text with
    | none => text
    | some n => substr text 0 n
  { a with
    curHttpRequest :=
      { a.curHttpRequest with
        url := url
        path := getUrlPath url
        valuesGET := parseGET curlUnescape url a.curHttpRequest.valuesGET } }

/-- The text that `onUrl` reads. -/
def urlText (memory : Bytes) : Bytes := memory.takeWhile (fun b => b != 32 && b != 0)

theorem onUrl_eq (memory : Bytes) (length : Nat) (a : Assembly) :
    a.onUrl curlUnescape memory length =
      { a with
        curHttpRequest :=
          { a.curHttpRequest with
            url := urlText memory
            path := getUrlPath (urlText memory)
            valuesGET := parseGET curlUnescape (urlText memory) a.curHttpRequest.valuesGET } } := by
  have htext : (cStr memory).takeWhile (· != 32) = urlText memory := by
    rw [cStr, List.takeWhile_takeWhile, urlText]
    simp [bne, beq_eq_decide]
  unfold onUrl
  dsimp only
  cases hfind : find 32 (cStr memory) with
  | none => rw [← htext, takeWhile_of_find_none hfind]
  | some n => rw [← htext, takeWhile_of_find hfind]

/-- `HttpConnection::onHeadersField`. -/
def onHeadersField (bytes : Bytes) (a : Assembly) : Assembly := { a with curHeaderField := cStr bytes }

/-- `HttpConnection::onHeadersValue`; `std::map::insert` keeps an entry that is there. -/
def onHeadersValue (bytes : Bytes) (a : Assembly) : Assembly :=
  let val := cStr bytes
  let cookies :=
    if a.curHeaderField = ascii "Cookie" then parseCookies val a.curHttpRequest.cookies
    else a.curHttpRequest.cookies
  { a with
    curHttpRequest :=
      { a.curHttpRequest with
        cookies := cookies
        headers := a.curHttpRequest.headers.insertIfNew a.curHeaderField val }
    keepalive := if a.curHeaderField = ascii "Connection" ∧ val = ascii "keep-alive" then true
      else a.keepalive }

/-- `HttpConnection::onHeadersComplete`. -/
def onHeadersComplete (shouldKeepAlive : Bool) (a : Assembly) : Assembly :=
  { a with keepalive := shouldKeepAlive }

/-- `HttpConnection::onBody`. -/
def onBody (bytes : Bytes) (a : Assembly) : Assembly :=
  { a with curHttpRequest := { a.curHttpRequest with body := cStr bytes } }

/-- `HttpConnection::onMessageComplete`. -/
def onMessageComplete (a : Assembly) : Assembly := { a with requestFinished := true }

/-- A callback; `onMessageBegin` and `onStatus` do nothing. -/
def callback (a : Assembly) : Callback → Assembly
  | .messageBegin => a
  | .url memory length => a.onUrl curlUnescape memory length
  | .status _ => a
  | .headersField bytes => a.onHeadersField bytes
  | .headersValue bytes => a.onHeadersValue bytes
  | .headersComplete k => a.onHeadersComplete k
  | .body bytes => a.onBody bytes
  | .messageComplete => a.onMessageComplete

/-- The callbacks of one `http_parser_execute`. -/
def callbacks (a : Assembly) (cs : List Callback) : Assembly := cs.foldl (callback curlUnescape) a

theorem callbacks_append (a : Assembly) (cs ds : List Callback) :
    a.callbacks curlUnescape (cs ++ ds) = (a.callbacks curlUnescape cs).callbacks curlUnescape ds :=
  List.foldl_append

end

end Assembly

end HttpServer
end Hiaux
