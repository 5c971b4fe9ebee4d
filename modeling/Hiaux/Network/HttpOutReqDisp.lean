import Hiaux.Lib.Run
import Hiaux.Network.HttpClientAsync

/-!
# `Network.HttpOutReqDisp` — the dispatcher of outgoing requests

`HttpOutRequestDisp` numbers the requesters added to it and lets them call; the answer of a call is handed to
the requester with the number the call was made under, and a requester that has finished is taken out. All of
this is done by tasks of a launcher. A step is one task, up to the end of its section under the lock; what
`onCallDoneTask` does behind that section, without the lock, is a step of its own. The launcher runs every
task it is given once, at any time and in any order.

The requesters are `HttpSimpleRequester` and `HttpSimpleRequesterPost`, which differ in the call they make.
Their callbacks return. Beside the program's data the model keeps which calls have been reported by the HTTP
client, which callbacks have been made, and whether a number was looked up that is not there.
-/

namespace Hiaux
namespace Network

open Lib

/-- `++m_req_id`, on an `int`. -/
def increment (n : Int) : Int := Int.bmod (n + 1) (2 ^ 32)

/-- `HttpSimpleRequester`, or `HttpSimpleRequesterPost` if there are data to post. -/
structure Requester where
  callUrl : Bytes
  postdata : Option Bytes
  id : Int
  isFinished : Bool
deriving DecidableEq, Repr

/-- The constructors. The id is not used before it is set. -/
def Requester.new (callUrl : Bytes) (postdata : Option Bytes) : Requester := ⟨callUrl, postdata, 0, false⟩

/-- The callback a requester makes: `m_onCalledOk(m_context, resp)` or `m_onCalledFail(m_context)`. -/
inductive CallResult where
  | ok (resp : Bytes)
  | fail
deriving DecidableEq, Repr

/-- A callback, and whose it is. -/
structure Called where
  requester : Nat
  result : CallResult
deriving DecidableEq, Repr

/-- The tasks the dispatcher gives to its launcher. -/
inductive Task where
  | addRequester (r : Nat)
  | onCall (reqid callid : Int) (url : Bytes) (caller : Nat)
  | onCallPost (reqid callid : Int) (url postdata : Bytes) (caller : Nat)
  | onCallDone (ji : JobInfo)
  | onRequesterFinished (reqid : Int)
deriving DecidableEq, Repr

/-- `HttpOutRequestDisp`, with the requesters as objects at addresses, the tasks its launcher has been given
    and has not yet begun, and the runs of `onCallDoneTask` that have looked their requester up and not yet
    come to their end. -/
structure HttpOutRequestDisp where
  objects : Nat → Requester
  allocated : Nat
  reqId : Int
  requesters : Std.ExtTreeMap Int Nat
  client : HttpClientAsync
  tasks : List Task
  completing : List (Option Nat × JobInfo)
  reports : List Transfer
  callbacks : List Called
  missing : Bool

namespace HttpOutRequestDisp

/-- The constructor. -/
def new : HttpOutRequestDisp :=
  { objects := fun _ => .new [] none, allocated := 0, reqId := 0, requesters := ∅, client := ⟨∅, []⟩,
    tasks := [], completing := [], reports := [], callbacks := [], missing := false }

/-- Changing a requester. -/
def modify (r : Nat) (f : Requester → Requester) (s : HttpOutRequestDisp) : HttpOutRequestDisp :=
  { s with objects := Function.update s.objects r (f (s.objects r)) }

/-- `m_launcher->addTask(..)`. -/
def addTask (t : Task) (s : HttpOutRequestDisp) : HttpOutRequestDisp := { s with tasks := s.tasks ++ [t] }

/-! ## Requesters -/

/-- `HttpOutRequestDisp::addRequester`, with a requester just made. -/
def addRequester (callUrl : Bytes) (postdata : Option Bytes) (s : HttpOutRequestDisp) : HttpOutRequestDisp :=
  { s with
    objects := Function.update s.objects s.allocated (.new callUrl postdata)
    allocated := s.allocated + 1 }.addTask (.addRequester s.allocated)

/-- `Requester::call`, which is `HttpOutRequestDisp::onCall`. -/
def call (r : Nat) (callid : Int) (url : Bytes) (s : HttpOutRequestDisp) : HttpOutRequestDisp :=
  s.addTask (.onCall (s.objects r).id callid url r)

/-- `Requester::callPost`, which is `HttpOutRequestDisp::onCallPost`. -/
def callPost (r : Nat) (callid : Int) (url postdata : Bytes) (s : HttpOutRequestDisp) : HttpOutRequestDisp :=
  s.addTask (.onCallPost (s.objects r).id callid url postdata r)

/-- `HttpSimpleRequester::start`, `HttpSimpleRequesterPost::start`. -/
def start (r : Nat) (s : HttpOutRequestDisp) : HttpOutRequestDisp :=
  match (s.objects r).postdata with
  | none => s.call r 0 (s.objects r).callUrl
  | some postdata => s.callPost r 0 (s.objects r).callUrl postdata

/-- `HttpSimpleRequester::onCallDone`, and the same for `HttpSimpleRequesterPost`. -/
def onCallDone (r : Nat) (_callid : Int) (success : Bool) (resp : Bytes) (s : HttpOutRequestDisp) :
    HttpOutRequestDisp :=
  let result : CallResult := if !success then .fail else .ok resp
  let s : HttpOutRequestDisp := { s with callbacks := s.callbacks ++ [⟨r, result⟩] }
  s.modify r (fun o => { o with isFinished := true })

/-! ## Tasks -/

/-- `HttpOutRequestDisp::addRequesterTask`. -/
def addRequesterTask (r : Nat) (s : HttpOutRequestDisp) : HttpOutRequestDisp :=
  let s := { s with reqId := increment s.reqId }
  let s := s.modify r (fun o => { o with id := s.reqId })
  let s := { s with requesters := s.requesters.insertIfNew (s.objects r).id r }
  s.start r

/-- `HttpOutRequestDisp::onCallTask`. -/
def onCallTask (curl : Nat) (reqid callid : Int) (url : Bytes) (caller : Nat) (s : HttpOutRequestDisp) :
    HttpOutRequestDisp :=
  { s with client := s.client.call curl ⟨reqid, callid, caller⟩ url }

/-- `HttpOutRequestDisp::onCallPostTask`. -/
def onCallPostTask (curl : Nat) (reqid callid : Int) (url postdata : Bytes) (caller : Nat)
    (s : HttpOutRequestDisp) : HttpOutRequestDisp :=
  { s with client := s.client.callPost curl ⟨reqid, callid, caller⟩ url postdata }

/-- `HttpOutRequestDisp::onCallDoneTask`, its section under the lock. -/
def onCallDoneTask (ji : JobInfo) (s : HttpOutRequestDisp) : HttpOutRequestDisp :=
  match s.requesters[ji.userdata.reqid]? with
  | some r => { s with completing := s.completing ++ [(some r, ji)] }
  | none => { s with completing := s.completing ++ [(none, ji)], missing := true }

/-- The rest of `onCallDoneTask`. -/
def completeCall (requester : Option Nat) (ji : JobInfo) (s : HttpOutRequestDisp) : HttpOutRequestDisp :=
  match requester with
  | none => s
  | some r =>
      let s := s.onCallDone r ji.userdata.requesterCallid ji.success ji.resp
      if (s.objects r).isFinished then s.addTask (.onRequesterFinished (s.objects r).id) else s

/-- `HttpOutRequestDisp::onRequesterFinishedTask`. -/
def onRequesterFinishedTask (reqid : Int) (s : HttpOutRequestDisp) : HttpOutRequestDisp :=
  if reqid ∈ s.requesters then { s with requesters := s.requesters.erase reqid }
  else { s with missing := true }

/-- A task of the launcher; `curl` is what `curl_easy_init` returns if it calls it. -/
def runTask (curl : Nat) (t : Task) (s : HttpOutRequestDisp) : HttpOutRequestDisp :=
  match t with
  | .addRequester r => s.addRequesterTask r
  | .onCall reqid callid url caller => s.onCallTask curl reqid callid url caller
  | .onCallPost reqid callid url postdata caller => s.onCallPostTask curl reqid callid url postdata caller
  | .onCallDone ji => s.onCallDoneTask ji
  | .onRequesterFinished reqid => s.onRequesterFinishedTask reqid

/-! ## Steps -/

/-- What happens next: a requester is added, a task of the launcher begins, a run of `onCallDoneTask` goes on
    behind the lock, the transfer of a handle is done, or the client's launcher runs a `callHandler`. -/
inductive Input where
  | addRequester (callUrl : Bytes) (postdata : Option Bytes)
  | task (k curl : Nat)
  | completing (k : Nat)
  | transfer (curl : Nat) (ok : Bool) (resp : Bytes)
  | callHandler (k : Nat)
deriving DecidableEq, Repr

/-- One step. -/
def step (s : HttpOutRequestDisp) : Input → Option HttpOutRequestDisp
  | .addRequester callUrl postdata => some (s.addRequester callUrl postdata)
  | .task k curl => s.tasks[k]?.map (fun t => { s with tasks := s.tasks.eraseIdx k }.runTask curl t)
  | .completing k =>
      s.completing[k]?.map (fun p => { s with completing := s.completing.eraseIdx k }.completeCall p.1 p.2)
  | .transfer curl ok resp =>
      let out := s.client.performTransfer curl ok resp
      some { s with client := out.1, reports := s.reports ++ out.2.toList }
  -- `m_onCalled(ji)` is `onCallDone`, which adds its task
  | .callHandler k =>
      s.client.tasks[k]?.map (fun ji =>
        { s with client := { s.client with tasks := s.client.tasks.eraseIdx k } }.addTask (.onCallDone ji))

/-- What the environment promises: fewer than `2^31` requesters are added, and `curl_easy_init` returns a
    handle that is not in use. -/
def Promised (s : HttpOutRequestDisp) (input : Input) : Prop :=
  match input with
  | .addRequester _ _ => s.allocated + 1 < 2 ^ 31
  | .task k curl =>
      match s.tasks[k]? with
      | some (.onCall _ _ _ _) => curl ∉ s.client.eCurls
      | some (.onCallPost _ _ _ _ _) => curl ∉ s.client.eCurls
      | _ => True
  | _ => True

instance (s : HttpOutRequestDisp) (input : Input) : Decidable (Promised s input) := by
  unfold Promised
  cases input with
  | task k curl =>
      dsimp only
      split <;> infer_instance
  | _ => infer_instance

/-- Nothing is outstanding: no task of either launcher, no run of `onCallDoneTask`, no transfer. -/
structure Quiet (s : HttpOutRequestDisp) : Prop where
  tasks : s.tasks = []
  completing : s.completing = []
  transfers : s.client.eCurls = ∅
  handlers : s.client.tasks = []

/-- The callbacks a requester has made. -/
def callbacksOf (s : HttpOutRequestDisp) (r : Nat) : List CallResult :=
  (s.callbacks.filter (·.requester = r)).map Called.result

/-- The calls of a requester that have been reported. -/
def reportsOf (s : HttpOutRequestDisp) (r : Nat) : List Transfer :=
  s.reports.filter (·.job.userdata.caller = r)

end HttpOutRequestDisp

end Network
end Hiaux
