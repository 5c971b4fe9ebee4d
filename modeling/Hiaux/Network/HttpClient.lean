import Hiaux.Lib.Bytes

/-!
# `Network.HttpClient` — HTTP calls over one easy handle

`crawl_function_pt` is the write callback of both clients. `HttpClient` sets the options of its handle and performs
the transfer; what the transfer does is the environment. The options of the handle stay for the next call.
-/

namespace Hiaux
namespace Network

open Lib

/-- `crawl_function_pt`: what it returns for the `size*nmemb` bytes at `ptr`, and what is then in `stream`. -/
def crawlFunctionPt (ptr stream : Bytes) : Nat × Bytes :=
  if ptr.length = 0 then (0, stream)
  else
    let bf := ptr ++ [0]
    (ptr.length, stream ++ cStr bf)

/-- The callbacks of a transfer, one for each piece of the body. -/
def crawl (chunks : List Bytes) (stream : Bytes) : Bytes :=
  chunks.foldl (fun stream ptr => (crawlFunctionPt ptr stream).2) stream

/-- The options of an easy handle that differ between calls: `CURLOPT_URL`, and the string at `CURLOPT_POSTFIELDS`
    once it is set. -/
structure EasyHandle where
  url : Bytes
  postFields : Option Bytes
deriving DecidableEq, Repr

/-- The body that a handle posts; `curlBody` is what libcurl sends of the string at `CURLOPT_POSTFIELDS`. -/
def EasyHandle.body (curlBody : Bytes → Bytes) (curl : EasyHandle) : Option Bytes := curl.postFields.map curlBody

/-- What happens in `curl_easy_perform`: the pieces the body comes in, whether the result is 0, and
    `CURLINFO_RESPONSE_CODE`. -/
structure Performed where
  chunks : List Bytes
  ok : Bool
  httpCode : Nat
deriving DecidableEq, Repr

/-- A call: its handle when the transfer is performed, what it returns, and what is then in `_resp`. -/
structure Call where
  curl : EasyHandle
  returned : Bool
  resp : Bytes
deriving DecidableEq, Repr

namespace HttpClient

/-- What both calls do once the options are set. -/
def perform (curl : EasyHandle) (resp : Bytes) (p : Performed) : Call :=
  ⟨curl, p.ok && p.httpCode == 200, crawl p.chunks resp⟩

/-- `HttpClient::callSimple`. -/
def callSimple (url resp : Bytes) (p : Performed) (curl : EasyHandle) : Call :=
  perform { curl with url := cStr url } resp p

/-- `HttpClient::callPost`. -/
def callPost (url postdata resp : Bytes) (p : Performed) (curl : EasyHandle) : Call :=
  perform { curl with url := cStr url, postFields := some postdata } resp p

end HttpClient

end Network
end Hiaux
