import Hiaux.Lib.LastWrite
import Hiaux.Lib.Lookup
import Hiaux.Crypt.Correctness.Sha1Digest
import Hiaux.HttpApi.Correctness.Registration

/-!
# `HttpApi.Correctness.Authentication` — signed methods run for authenticated requests only

What a request is checked against is spread over tables that registrations write to one by one. A lookup in
one of them finds the last registration that wrote its key (`Lib.LastWrite`), so the decision of
`checkFields` can be told in terms of the history (`Authentic`): a method once registered as signed stays
signed, whatever is registered under its name later.
-/

namespace Hiaux
namespace HttpApi

open Lib HttpServer

/-! ## What a registration writes -/

namespace Registration

/-- The entry of `m_keys`. -/
def token? : Registration → Option (Bytes × Bytes)
  | .userToken userid token => some (userid, token)
  | _ => none

/-- The entry of `m_methods_args`. -/
def args? : Registration → Option (Bytes × List Bytes)
  | .userToken _ _ => none
  | .method name argsNames _ => some (name, argsNames)
  | .signed name argsNames _ _ => some (name, argsNames)
  | .signedAsync name argsNames _ _ => some (name, argsNames)

/-- The entry of `m_methods_callbacks`. -/
def sync? : Registration → Option (Bytes × (StrMap → Bytes))
  | .method name _ onreq => some (name, onreq)
  | .signed name _ onreq _ => some (name, onreq)
  | _ => none

/-- The entry of `m_methods_callbacks_async`. -/
def async? : Registration → Option (Bytes × (StrMap → List Bytes))
  | .signedAsync name _ onreq _ => some (name, onreq)
  | _ => none

/-- The entry of `m_signed`. -/
def signed? : Registration → Option (Bytes × Bool)
  | .signed name _ _ _ => some (name, true)
  | .signedAsync name _ _ _ => some (name, true)
  | _ => none

/-- The range of a signed registration. No table keeps it. -/
def maxTsRange? : Registration → Option (Bytes × Nat)
  | .signed name _ _ maxTsRange => some (name, maxTsRange)
  | .signedAsync name _ _ maxTsRange => some (name, maxTsRange)
  | _ => none

end Registration

namespace Api

section Tables

variable (buildApiError : Bytes → Bytes) (rs : List Registration)

theorem getElem?_keys (userid : Bytes) :
    (registerAll (.new buildApiError) rs).keys[userid]? = lastWrite Registration.token? userid rs := by
  have h := getElem?_writes Registration.token? userid register Api.keys
    (fun api r => by cases r <;> rfl) (.new buildApiError) rs
  exact h.trans Option.or_none

theorem getElem?_methodsArgs (name : Bytes) :
    (registerAll (.new buildApiError) rs).methodsArgs[name]? = lastWrite Registration.args? name rs := by
  have h := getElem?_writes Registration.args? name register Api.methodsArgs
    (fun api r => by cases r <;> rfl) (.new buildApiError) rs
  exact h.trans Option.or_none

theorem getElem?_methodsCallbacks (name : Bytes) :
    (registerAll (.new buildApiError) rs).methodsCallbacks[name]? =
      lastWrite Registration.sync? name rs := by
  have h := getElem?_writes Registration.sync? name register Api.methodsCallbacks
    (fun api r => by cases r <;> rfl) (.new buildApiError) rs
  exact h.trans Option.or_none

theorem getElem?_methodsCallbacksAsync (name : Bytes) :
    (registerAll (.new buildApiError) rs).methodsCallbacksAsync[name]? =
      lastWrite Registration.async? name rs := by
  have h := getElem?_writes Registration.async? name register Api.methodsCallbacksAsync (fun api r => by cases r <;> rfl) (.new buildApiError) rs
  exact h.trans Option.or_none

theorem isSigned_iff (name : Bytes) : (registerAll (.new buildApiError) rs).isSigned name = true ↔
    ∃ r ∈ rs, r.signed? = some (name, true) := by
  have h := getElem?_writes Registration.signed? name register Api.signed
    (fun api r => by cases r <;> rfl) (.new buildApiError) rs
  have h' : (registerAll (.new buildApiError) rs).signed[name]? = lastWrite Registration.signed? name rs :=
    h.trans Option.or_none
  show (registerAll (.new buildApiError) rs).signed.contains name = true ↔ _
  rw [← Std.ExtTreeMap.isSome_getElem?_eq_contains, h', lastWrite_isSome_iff]
  refine exists_congr fun r => and_congr_right fun _ => ?_
  cases r <;> simp [Registration.signed?]

end Tables

/-! ## The check -/

/-- The service fields of a request carry a signature of the user they name. -/
structure SignedBy (api : Api) (fields : StrMap) (method userid key ts : Bytes) : Prop where
  hasUserid : fields[ascii "api_userid"]? = some userid
  hasKey : api.keys[userid]? = some key
  hasTs : fields[ascii "ts"]? = some ts
  hasSign : fields[ascii "sign"]? = some (signHex method ts key)

theorem checkSign_eq_none_iff {api : Api} {fields : StrMap} {method : Bytes} :
    api.checkSign fields method = none ↔ ∃ userid key ts, SignedBy api fields method userid key ts := by
  unfold checkSign
  constructor
  · intro h
    split at h
    · rename_i userid ts sign huserid hts hsign
      split at h
      · exact absurd h (by simp)
      · rename_i key hkey
        split at h
        · exact absurd h (by simp)
        · rename_i heq
          exact ⟨userid, key, ts, huserid, hkey, hts, hsign.trans (congrArg some (not_not.mp heq))⟩
    · exact absurd h (by simp)
  · rintro ⟨userid, key, ts, hby⟩
    simp [hby.hasUserid, hby.hasTs, hby.hasSign, hby.hasKey]

/-- What a request that passes the check carries: a declared method, its arguments and, for a signed one, a
    signature. -/
structure Accepted (api : Api) (fields : StrMap) (method : Bytes) (args : List Bytes) : Prop where
  hasMethod : fields[ascii "method"]? = some method
  declared : api.methodsArgs[method]? = some args
  hasArgs : ∀ arg ∈ args, arg ∈ fields
  signed : api.isSigned method = true → ∃ userid key ts, SignedBy api fields method userid key ts

/-- **The decision of `checkFields`.** -/
theorem checkFields_eq_none_iff {api : Api} {fields : StrMap} :
    api.checkFields fields = none ↔ ∃ method args, Accepted api fields method args := by
  unfold checkFields
  constructor
  · intro h
    split at h
    · exact absurd h (by simp)
    · rename_i method hmethod
      split at h
      · exact absurd h (by simp)
      · rename_i args hargs
        split at h
        · exact absurd h (by simp)
        · rename_i hall
          have hall' : ∀ arg ∈ args, arg ∈ fields := by
            intro arg harg
            by_contra hn
            have hn' : fields.contains arg = false :=
              Bool.eq_false_iff.mpr fun h => hn (Std.ExtTreeMap.mem_iff_contains.mpr h)
            exact hall (List.any_eq_true.mpr ⟨arg, harg, by rw [hn']; rfl⟩)
          refine ⟨method, args, hmethod, hargs, hall', ?_⟩
          intro hsigned
          rw [if_pos hsigned] at h
          exact checkSign_eq_none_iff.mp h
  · rintro ⟨method, args, hacc⟩
    have hall : ¬ args.any (fun arg => !fields.contains arg) = true := by
      intro hany
      obtain ⟨arg, harg, hn⟩ := List.any_eq_true.mp hany
      have hmem := Std.ExtTreeMap.mem_iff_contains.mp (hacc.hasArgs arg harg)
      simp [hmem] at hn
    simp only [hacc.hasMethod, hacc.declared, if_neg hall]
    split
    · rename_i hsigned
      exact checkSign_eq_none_iff.mpr (hacc.signed hsigned)
    · rfl

end Api

/-! ## Requests -/

/-- A request of either kind; the custom request of a binary connection may be of another protocol. -/
inductive ApiRequest where
  | http (req : HttpRequest)
  | binary (req : Option BinServer.Request)

/-- The parameters `handleRequest` is called with. -/
def ApiRequest.params (pb : PostProtobuf) : ApiRequest → StrMap
  | .http req => Api.mergePostParams pb req.valuesGET req.body
  | .binary (some req) => Api.binaryParams req
  | .binary none => ∅

/-- The callback that was registered last for a method, of its kind. -/
def RegisteredAs (rs : List Registration) (method : Bytes) : ApiCallback → Prop
  | .sync onreq => lastWrite Registration.sync? method rs = some onreq
  | .async onreq => lastWrite Registration.async? method rs = some onreq

/-- A method that was registered as signed at some time. -/
def EverSigned (rs : List Registration) (method : Bytes) : Prop :=
  ∃ r ∈ rs, r.signed? = some (method, true)

/-- Parameters that hold the arguments declared last for a method, and the signature of a registered user:
    his id, a time stamp, and the hash of method, time stamp and key, which is the SHA-1 digest in hex digits
    where the length in bits fits into a word. -/
structure Authentic (rs : List Registration) (params : StrMap) (method : Bytes) : Prop where
  hasArgs : ∃ args, lastWrite Registration.args? method rs = some args ∧ ∀ arg ∈ args, arg ∈ params
  signed : ∃ userid key ts, params[ascii "api_userid"]? = some userid ∧
    lastWrite Registration.token? userid rs = some key ∧ params[ascii "ts"]? = some ts ∧
    params[ascii "sign"]? = some (Api.signHex method ts key) ∧
    ((method ++ ts ++ key).length < 2 ^ 29 →
      Api.signHex method ts key = Sha1.toHexString (Sha1.sha1 (method ++ ts ++ key)))

namespace Api

/-- The hash is the SHA-1 digest. -/
theorem signHex_eq {method ts key : Bytes} (h : (method ++ ts ++ key).length < 2 ^ 29) :
    signHex method ts key = Sha1.toHexString (Sha1.sha1 (method ++ ts ++ key)) := by
  have hint : HttpConnection.toInt (method ++ ts ++ key).length = (method ++ ts ++ key).length := by
    rw [HttpConnection.toInt, if_pos (by omega), Nat.mod_eq_of_lt (by omega)]
  unfold signHex
  dsimp only
  rw [hint, Sha1.calcHash_eq h]

/-- `HttpApi::handle` or `HttpApi::handleBinary`. -/
def serve (api : Api) (pb : PostProtobuf) : ApiRequest → Handled
  | .http req => api.handle pb req
  | .binary req => api.handleBinary req

/-- The callback in the table of a method, for callbacks of its kind. -/
def CallbackOf (api : Api) (method : Bytes) : ApiCallback → Prop
  | .sync onreq => api.methodsCallbacks[method]? = some onreq
  | .async onreq => api.methodsCallbacksAsync[method]? = some onreq

/-- Running a callback takes a request that passes the check, and the callback is the one in the table of
    the method; no other one is run. -/
theorem invoked_of_handleRequest {api : Api} {params : StrMap} {bin : Bool} {cb : ApiCallback}
    (h : cb ∈ (api.handleRequest params bin).invoked) :
    (api.handleRequest params bin).invoked = [cb] ∧ ∃ method args, Accepted api params method args ∧
      api.CallbackOf method cb := by
  unfold handleRequest at h ⊢
  cases hcheck : api.checkFields params with
  | some errMess =>
      rw [hcheck] at h
      exact absurd h List.not_mem_nil
  | none =>
      obtain ⟨method, args, hacc⟩ := checkFields_eq_none_iff.mp hcheck
      rw [hcheck] at h
      dsimp only at h ⊢
      rw [getD_of_getElem? hacc.hasMethod []] at h ⊢
      split at h
      · rename_i hasync
        rw [if_pos hasync]
        split at h
        · exact absurd h List.not_mem_nil
        · rename_i onreq honreq
          obtain rfl := List.mem_singleton.mp h
          exact ⟨rfl, method, args, hacc, honreq⟩
      · rename_i hsync
        rw [if_neg hsync]
        split at h
        · exact absurd h List.not_mem_nil
        · rename_i onreq honreq
          -- both transports run the callback; they differ in the reply
          have hcb : cb = .sync onreq := by cases bin <;> exact List.mem_singleton.mp h
          subst hcb
          exact ⟨by cases bin <;> rfl, method, args, hacc, honreq⟩

/-- Every request goes through `handleRequest`, unless it is of another protocol. -/
theorem invoked_of_serve {api : Api} {pb : PostProtobuf} {req : ApiRequest} {cb : ApiCallback}
    (h : cb ∈ (api.serve pb req).invoked) :
    ∃ bin, api.serve pb req = api.handleRequest (req.params pb) bin := by
  cases req with
  | http req => exact ⟨false, rfl⟩
  | binary req =>
      cases req with
      | none => exact absurd h List.not_mem_nil
      | some req => exact ⟨true, rfl⟩

/-- **A signed method is run for authentic requests only**, and a request runs one callback at most: after
    every sequence of registrations, a callback that a request leads to is the only one and is registered
    for the method the request names; and if that method was ever registered as signed, the parameters hold
    its arguments and the signature of a registered user. -/
theorem invoked_authentic (pb : PostProtobuf) (buildApiError : Bytes → Bytes) (rs : List Registration)
    (req : ApiRequest) {cb : ApiCallback}
    (hcb : cb ∈ ((registerAll (.new buildApiError) rs).serve pb req).invoked) :
    ((registerAll (.new buildApiError) rs).serve pb req).invoked = [cb] ∧
      ∃ method, (req.params pb)[ascii "method"]? = some method ∧ RegisteredAs rs method cb ∧
        (EverSigned rs method → Authentic rs (req.params pb) method) := by
  obtain ⟨bin, hhandle⟩ := invoked_of_serve hcb
  rw [hhandle] at hcb ⊢
  obtain ⟨honly, method, args, hacc, htable⟩ := invoked_of_handleRequest hcb
  refine ⟨honly, method, hacc.hasMethod, ?_, ?_⟩
  · cases cb with
    | sync onreq => exact (getElem?_methodsCallbacks buildApiError rs method).symm.trans htable
    | async onreq => exact (getElem?_methodsCallbacksAsync buildApiError rs method).symm.trans htable
  · intro hsigned
    obtain ⟨userid, key, ts, hby⟩ := hacc.signed ((isSigned_iff buildApiError rs method).mpr hsigned)
    refine ⟨⟨args, ?_, hacc.hasArgs⟩, userid, key, ts, hby.hasUserid, ?_, hby.hasTs, hby.hasSign,
      fun hlen => signHex_eq hlen⟩
    · rw [← getElem?_methodsArgs buildApiError]
      exact hacc.declared
    · rw [← getElem?_keys buildApiError]
      exact hby.hasKey

/-- A request that passes the check runs the callback in the table of its method. -/
theorem invoked_of_accepted {api : Api} {params : StrMap} {method : Bytes} {args : List Bytes} (bin : Bool)
    {onreq : StrMap → Bytes} (hacc : Accepted api params method args) (hasync : api.isAsync method = false)
    (honreq : api.methodsCallbacks[method]? = some onreq) :
    (api.handleRequest params bin).invoked = [.sync onreq] := by
  have hcheck := checkFields_eq_none_iff.mpr ⟨method, args, hacc⟩
  have hget := getD_of_getElem? hacc.hasMethod []
  unfold handleRequest
  rw [hcheck]
  dsimp only
  rw [hget, hasync, if_neg Bool.false_ne_true, honreq]
  cases bin <;> rfl

/-- A request for a signed method with one argument. -/
def paymentParams (sign : Bytes) : StrMap :=
  .ofList [(ascii "method", ascii "pay"), (ascii "sum", ascii "5"), (ascii "api_userid", ascii "ann"),
    (ascii "ts", ascii "1"), (ascii "sign", sign)]

/-- The registrations behind it. -/
def paymentRegistrations : List Registration :=
  [.userToken (ascii "ann") (ascii "key"), .signed (ascii "pay") [ascii "sum"] (fun _ => ascii "ok") 15]

theorem accepted_payment : Accepted (registerAll (.new id) paymentRegistrations)
    (paymentParams (signHex (ascii "pay") (ascii "1") (ascii "key"))) (ascii "pay") [ascii "sum"] := by
  generalize hsign : signHex (ascii "pay") (ascii "1") (ascii "key") = sign
  refine ⟨rfl, rfl, ?_, fun _ => ⟨ascii "ann", ascii "key", ascii "1", rfl, rfl, rfl, ?_⟩⟩
  · intro arg harg
    obtain rfl := List.mem_singleton.mp harg
    exact Std.ExtTreeMap.mem_iff_contains.mpr rfl
  · rw [hsign]
    rfl

/-- A request for a signed method that is answered by its callback. -/
theorem invoked_authentic_payment : Authentic paymentRegistrations
    (paymentParams (signHex (ascii "pay") (ascii "1") (ascii "key"))) (ascii "pay") := by
  generalize hparams : paymentParams (signHex (ascii "pay") (ascii "1") (ascii "key")) = params
  have hreq : ApiRequest.params .reference (.http { HttpRequest.new with valuesGET := params }) = params :=
    mergePostParams_nil PostProtobuf.reference_lawful params
  have hacc := hparams ▸ accepted_payment
  have hinvoked : ((registerAll (.new id) paymentRegistrations).serve .reference
      (.http { HttpRequest.new with valuesGET := params })).invoked = [.sync fun _ => ascii "ok"] := by
    show (handleRequest _ (ApiRequest.params .reference (.http _)) false).invoked = _
    rw [hreq]
    exact invoked_of_accepted false hacc rfl rfl
  obtain ⟨-, method, hmethod, -, hauth⟩ := invoked_authentic .reference id paymentRegistrations
    (.http { HttpRequest.new with valuesGET := params }) (hinvoked ▸ List.mem_singleton_self _)
  rw [hreq] at hmethod hauth
  obtain rfl := Option.some.inj (hacc.hasMethod.symm.trans hmethod)
  exact hauth ⟨_, List.mem_cons_of_mem _ List.mem_cons_self, rfl⟩

end Api

end HttpApi
end Hiaux
