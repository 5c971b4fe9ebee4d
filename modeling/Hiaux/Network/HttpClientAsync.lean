import Hiaux.Lib.Bytes
import Std.Data.ExtTreeMap.Lemmas

/-!
# `Network.HttpClientAsync` — HTTP calls in the background

`HttpClientAsync` gives each call an easy handle and keeps the call's job under it. When the transfer of a
handle is done, the job is taken out and a task of the client's own launcher reports it. The transfer itself
is the environment: it ends at any time, with any result and response. What an easy handle was set up to do
is kept beside its job; only the transfer looks at it.
-/

namespace Hiaux
namespace Network

open Lib

/-- `HttpOutRequestDisp::OutRequestInfo`: what goes with a call and comes back with its job. `caller` is a
    record of the requester that made the call; no step looks at it. -/
structure OutRequestInfo where
  reqid : Int
  requesterCallid : Int
  caller : Nat
deriving DecidableEq, Repr

/-- `HttpClientAsync::JobInfo`. -/
structure JobInfo where
  userdata : OutRequestInfo
  resp : Bytes
  success : Bool
  postdata : Bytes
deriving DecidableEq, Repr

/-- The constructor of `JobInfo`. -/
def JobInfo.new (userdata : OutRequestInfo) (postdata : Bytes) : JobInfo := ⟨userdata, [], false, postdata⟩

/-- A job, with the options of its easy handle: `CURLOPT_URL`, and `CURLOPT_POSTFIELDS` where the request is
    a `POST`. -/
structure Transfer where
  url : Bytes
  postFields : Option Bytes
  job : JobInfo
deriving DecidableEq, Repr

/-- `HttpClientAsync`: `m_e_curls`, and the jobs whose `callHandler` its launcher has been given and has not
    yet run. -/
structure HttpClientAsync where
  eCurls : Std.ExtTreeMap Nat Transfer
  tasks : List JobInfo

namespace HttpClientAsync

/-- `HttpClientAsync::call`; `curl` is what `curl_easy_init` returns. -/
def call (curl : Nat) (userdata : OutRequestInfo) (url : Bytes) (c : HttpClientAsync) : HttpClientAsync :=
  { c with eCurls := c.eCurls.insertIfNew curl ⟨url, none, .new userdata []⟩ }

/-- `HttpClientAsync::callPost`. -/
def callPost (curl : Nat) (userdata : OutRequestInfo) (url postdata : Bytes) (c : HttpClientAsync) :
    HttpClientAsync :=
  { c with eCurls := c.eCurls.insertIfNew curl ⟨url, some postdata, .new userdata postdata⟩ }

/-- The body of the loop of `performTransfers`, for the message that the transfer of a handle is done: it
    wrote `resp`, and its result was `CURLE_OK` or not. Returned beside is what has been reported. -/
def performTransfer (curl : Nat) (ok : Bool) (resp : Bytes) (c : HttpClientAsync) :
    HttpClientAsync × Option Transfer :=
  match c.eCurls[curl]? with
  | none => (c, none)
  | some t =>
      let ji := { t.job with success := ok, resp := t.job.resp ++ resp }
      ({ eCurls := c.eCurls.erase curl, tasks := c.tasks ++ [ji] }, some { t with job := ji })

end HttpClientAsync

end Network
end Hiaux
