import Hiaux.Crypt.Sha1
import Hiaux.Crypt.Base64
import Hiaux.HttpApi.PostData
import Hiaux.BinServer.Parser
import Hiaux.HttpServer.Server

/-!
# `HttpApi.HttpApi` — methods behind HTTP and binary connections

`HttpApi` checks the fields of a request and runs the callback registered for its method. A synchronous
callback is represented by the response it gives for the parameters; an asynchronous one by the responses
it passes to its completion function, at once or later. Callbacks do not throw.
-/

namespace Hiaux
namespace HttpApi

open Lib HttpServer

/-- A registered callback. -/
inductive ApiCallback where
  | sync (onreq : StrMap → Bytes)
  | async (onreq : StrMap → List Bytes)

/-- `HttpApi`. -/
structure Api where
  methodsArgs : Std.ExtTreeMap Bytes (List Bytes)
  signed : Std.ExtTreeMap Bytes Bool
  async : Std.ExtTreeMap Bytes Bool
  methodsCallbacks : Std.ExtTreeMap Bytes (StrMap → Bytes)
  methodsCallbacksAsync : Std.ExtTreeMap Bytes (StrMap → List Bytes)
  keys : StrMap
  buildApiError : Bytes → Bytes

/-- What a request leads to: the callbacks invoked on its parameters, in order, and the replies given on its
    connection. -/
structure Handled where
  invoked : List ApiCallback
  replies : List Reply

namespace Api

/-! ## Registration -/

/-- The constructor. -/
def new (buildApiError : Bytes → Bytes) : Api := ⟨∅, ∅, ∅, ∅, ∅, ∅, buildApiError⟩

/-- `HttpApi::setUserToken`. -/
def setUserToken (userid token : Bytes) (api : Api) : Api :=
  { api with keys := api.keys.insert userid token }

/-- `HttpApi::addMethod`. -/
def addMethod (name : Bytes) (argsNames : List Bytes) (onreq : StrMap → Bytes) (api : Api) : Api :=
  { api with
    methodsArgs := api.methodsArgs.insert name argsNames
    methodsCallbacks := api.methodsCallbacks.insert name onreq }

/-- `HttpApi::addMethodSigned`. The range of the time stamp is not used. -/
def addMethodSigned (name : Bytes) (argsNames : List Bytes) (onreq : StrMap → Bytes) (_maxTsRange : Nat)
    (api : Api) : Api :=
  { api with
    methodsArgs := api.methodsArgs.insert name argsNames
    methodsCallbacks := api.methodsCallbacks.insert name onreq
    signed := api.signed.insert name true }

/-- `HttpApi::addMethodSignedAsync`. The range of the time stamp is not used. -/
def addMethodSignedAsync (name : Bytes) (argsNames : List Bytes) (onreq : StrMap → List Bytes)
    (_maxTsRange : Nat) (api : Api) : Api :=
  { api with
    methodsArgs := api.methodsArgs.insert name argsNames
    methodsCallbacksAsync := api.methodsCallbacksAsync.insert name onreq
    signed := api.signed.insert name true
    async := api.async.insert name true }

/-! ## Checking a request -/

/-- `HttpApi::isSigned`. -/
def isSigned (api : Api) (method : Bytes) : Bool := api.signed.contains method

/-- `HttpApi::isAsync`. -/
def isAsync (api : Api) (method : Bytes) : Bool := api.async.contains method

/-- The signature of a method called at `ts` by the owner of `key`. -/
def signHex (method ts key : Bytes) : Bytes :=
  let signRaw := method ++ ts ++ key
  Sha1.toHexString (Sha1.calcHash signRaw (HttpConnection.toInt signRaw.length))

/-- The part of `checkFields` for a signed method. -/
def checkSign (api : Api) (fields : StrMap) (method : Bytes) : Option Bytes :=
  match fields[ascii "api_userid"]?, fields[ascii "ts"]?, fields[ascii "sign"]? with
  | some apiUserid, some ts, some signGot =>
      match api.keys[apiUserid]? with
      | none => some (ascii "auth fail")
      | some key => if signGot ≠ signHex method ts key then some (ascii "auth fail") else none
  | _, _, _ => some (ascii "not all service fields set (api_userid, ts, sign)")

/-- `HttpApi::checkFields`: the error message, if a field is missing or wrong. -/
def checkFields (api : Api) (fields : StrMap) : Option Bytes :=
  match fields[ascii "method"]? with
  | none => some (ascii "method not set")
  | some method =>
      match api.methodsArgs[method]? with
      | none => some (ascii "method not found")
      | some args =>
          if args.any (fun arg => !fields.contains arg) then some (ascii "not all method's params set")
          else if api.isSigned method then api.checkSign fields method
          else none

/-! ## Handling a request -/

/-- `HttpApi::onAsyncCallDone`. -/
def onAsyncCallDone (resp : Bytes) : Reply := .http ⟨200, resp, []⟩

/-- `HttpApi::handleRequest`. -/
def handleRequest (api : Api) (params : StrMap) (bin : Bool) : Handled :=
  match api.checkFields params with
  | some errMess => ⟨[], [.http ⟨200, api.buildApiError errMess, []⟩]⟩
  | none =>
      let method := params.getD (ascii "method") []
      if api.isAsync method then
        match api.methodsCallbacksAsync[method]? with
        | none => ⟨[], [.http ⟨200, ascii "No such method", []⟩]⟩
        | some onreq => ⟨[.async onreq], (onreq params).map onAsyncCallDone⟩
      else
        match api.methodsCallbacks[method]? with
        | none => ⟨[], [.http ⟨200, ascii "No such method", []⟩]⟩
        | some onreq =>
            let resp := onreq params
            if !bin then ⟨[.sync onreq], [.http ⟨200, resp, []⟩]⟩
            -- the only reply that looks at the transport
            else ⟨[.sync onreq], [.custom (decimal resp.length ++ ascii "\n" ++ resp)]⟩

/-- The parameters of a binary request, with its method among them. -/
def binaryParams (req : BinServer.Request) : StrMap := req.params.insert (ascii "method") req.method

/-- `HttpApi::handleBinary`; there is no request if the cast fails. -/
def handleBinary (api : Api) : Option BinServer.Request → Handled
  | none => ⟨[], []⟩
  | some req => api.handleRequest (binaryParams req) true

/-- `HttpApi::mergePostParams`: the entries of the body are assigned into the parameters. -/
def mergePostParams (pb : PostProtobuf) (params : StrMap) (body : Bytes) : StrMap :=
  (pb.parseFromString (Base64.base64Decode body)).foldl (fun acc f => acc.insert f.field f.value) params

/-- A request without a body keeps its parameters. -/
theorem mergePostParams_nil {pb : PostProtobuf} (h : pb.Lawful) (params : StrMap) :
    mergePostParams pb params [] = params := by
  rw [mergePostParams, Base64.base64Decode_nil, h.parse_nil]
  rfl

/-- `HttpApi::handle`. -/
def handle (api : Api) (pb : PostProtobuf) (req : HttpRequest) : Handled :=
  api.handleRequest (mergePostParams pb req.valuesGET req.body) false

end Api

end HttpApi
end Hiaux
