import Hiaux.HttpApi.Correctness.Signature

/-!
# `HttpApi.Correctness.LastRegistration` — registering a method again

A name may be registered more than once. The arguments and the callback are overwritten by each
registration; that the method is signed, and that it is asynchronous, is only ever noted and never taken
back. So the last registration of a name decides how the method is served exactly if it takes nothing back
(`servedByLast_iff`).
-/

namespace Hiaux
namespace HttpApi

open Lib HttpServer

namespace Registration

/-- The name a registration is for, and the registration itself. -/
def named? (r : Registration) : Option (Bytes × Registration) := r.args?.map (fun a => (a.1, r))

/-- The arguments a registration declares. -/
def argsNames (r : Registration) : List Bytes := (r.args?.map Prod.snd).getD []

/-- The callback a registration brings. -/
def callback? : Registration → Option ApiCallback
  | .userToken _ _ => none
  | .method _ _ onreq => some (.sync onreq)
  | .signed _ _ onreq _ => some (.sync onreq)
  | .signedAsync _ _ onreq _ => some (.async onreq)

theorem named?_self {r r' : Registration} {name : Bytes} (h : r.named? = some (name, r')) : r' = r := by
  obtain ⟨a, -, ha⟩ := Option.map_eq_some_iff.mp h
  exact (Prod.mk.inj ha).2.symm

theorem named?_of_args? {r : Registration} {name : Bytes} {args : List Bytes}
    (h : r.args? = some (name, args)) : r.named? = some (name, r) := by
  rw [named?, h]
  rfl

theorem named?_of_sync? {r : Registration} {name : Bytes} {onreq : StrMap → Bytes}
    (h : r.sync? = some (name, onreq)) : r.named? = some (name, r) := by
  cases r with
  | method _ _ _ => exact congrArg some (Prod.ext (Prod.mk.inj (Option.some.inj h)).1 rfl)
  | signed _ _ _ _ => exact congrArg some (Prod.ext (Prod.mk.inj (Option.some.inj h)).1 rfl)
  | userToken _ _ => exact absurd h (by simp [sync?])
  | signedAsync _ _ _ _ => exact absurd h (by simp [sync?])

theorem named?_of_async? {r : Registration} {name : Bytes} {onreq : StrMap → List Bytes}
    (h : r.async? = some (name, onreq)) : r.named? = some (name, r) := by
  cases r with
  | signedAsync _ _ _ _ => exact congrArg some (Prod.ext (Prod.mk.inj (Option.some.inj h)).1 rfl)
  | userToken _ _ => exact absurd h (by simp [async?])
  | method _ _ _ => exact absurd h (by simp [async?])
  | signed _ _ _ _ => exact absurd h (by simp [async?])

end Registration

/-- A method that was registered as asynchronous at some time. -/
def EverAsync (rs : List Registration) (method : Bytes) : Prop :=
  ∃ r ∈ rs, ∃ onreq, r.async? = some (method, onreq)

/-- The fields of a signature. -/
def signFields : List Bytes := [ascii "api_userid", ascii "ts", ascii "sign"]

/-- Parameters that do not carry the fields of a signature. -/
def Unsigned (params : StrMap) : Prop := ∃ f ∈ signFields, f ∉ params

/-- The last registration of a method takes nothing back: it is asynchronous if one before was (or there is
    no user who could sign a request), and signed if one before was (or asks for the fields of a signature
    as arguments). -/
structure TakesNothingBack (rs : List Registration) (name : Bytes) (last : Registration) : Prop where
  async : last.async? = none → EverAsync rs name → ∀ r ∈ rs, r.token? = none
  signed : last.signed? = none → EverSigned rs name → ∀ f ∈ signFields, f ∈ last.argsNames

namespace Api

/-- The method is served as its registration `last` says. -/
structure ServedBy (api : Api) (name : Bytes) (last : Registration) : Prop where
  callback : ∀ params bin, params[ascii "method"]? = some name → (∀ arg ∈ last.argsNames, arg ∈ params) →
    (∃ userid key ts, SignedBy api params name userid key ts) →
    (api.handleRequest params bin).invoked = last.callback?.toList
  unsigned : ∀ params, params[ascii "method"]? = some name → (∀ arg ∈ last.argsNames, arg ∈ params) →
    Unsigned params → (api.checkFields params = none ↔ last.signed? = none)

/-! ## The tables after a last registration -/

section Tables

variable (buildApiError : Bytes → Bytes) {rs : List Registration} {name : Bytes} {last : Registration}

theorem isAsync_iff (name : Bytes) :
    (registerAll (.new buildApiError) rs).isAsync name = true ↔ EverAsync rs name := by
  have hwrite : ∀ r : Registration, (r.async?.map fun a => (a.1, true)) = some (name, true) ↔
      ∃ onreq, r.async? = some (name, onreq) := by
    intro r
    cases r <;> simp [Registration.async?]
  have h := getElem?_writes (fun r : Registration => r.async?.map fun a => (a.1, true)) name register
    Api.async (fun api r => by cases r <;> rfl) (.new buildApiError) rs
  have h' := h.trans Option.or_none
  show (registerAll (.new buildApiError) rs).async.contains name = true ↔ _
  rw [← Std.ExtTreeMap.isSome_getElem?_eq_contains,
    show (registerAll (.new buildApiError) rs).async[name]? = _ from h', lastWrite_isSome_iff]
  refine exists_congr fun r => and_congr_right fun _ => ?_
  rw [← hwrite r]
  constructor
  · rintro ⟨v, hv⟩
    obtain ⟨a, -, ha⟩ := Option.map_eq_some_iff.mp hv
    obtain rfl := (Prod.mk.inj ha).2
    exact hv
  · exact fun hv => ⟨true, hv⟩

variable (hlast : lastWrite Registration.named? name rs = some last)
include hlast

theorem mem_of_last : last ∈ rs ∧ last.named? = some (name, last) := by
  obtain ⟨r, hr, hentry⟩ := exists_of_lastWrite hlast
  obtain rfl := Registration.named?_self hentry
  exact ⟨hr, hentry⟩

theorem args?_of_last : last.args? = some (name, last.argsNames) := by
  obtain ⟨a, ha, heq⟩ := Option.map_eq_some_iff.mp (mem_of_last hlast).2
  rw [Registration.argsNames, ha, ← (Prod.mk.inj heq).1]
  rfl

/-- The arguments declared are those of the last registration. -/
theorem methodsArgs_of_last :
    (registerAll (.new buildApiError) rs).methodsArgs[name]? = some last.argsNames := by
  rw [getElem?_methodsArgs]
  exact lastWrite_of_lastEvent Registration.named?_self Registration.named?_of_args? hlast
    (args?_of_last hlast)

/-- What a last registration is: a synchronous one with its callback in the table, or an asynchronous
    one. -/
theorem callback_of_last :
    (∃ onreq, last.async? = none ∧ last.callback? = some (.sync onreq) ∧
        (registerAll (.new buildApiError) rs).methodsCallbacks[name]? = some onreq) ∨
      ∃ onreq, last.async? = some (name, onreq) ∧ last.callback? = some (.async onreq) ∧
        (registerAll (.new buildApiError) rs).methodsCallbacksAsync[name]? = some onreq := by
  have hargs := args?_of_last hlast
  have hsync : ∀ {onreq}, last.sync? = some (name, onreq) →
      (registerAll (.new buildApiError) rs).methodsCallbacks[name]? = some onreq := by
    intro onreq h
    rw [getElem?_methodsCallbacks]
    exact lastWrite_of_lastEvent Registration.named?_self Registration.named?_of_sync? hlast h
  have hasync : ∀ {onreq}, last.async? = some (name, onreq) →
      (registerAll (.new buildApiError) rs).methodsCallbacksAsync[name]? = some onreq := by
    intro onreq h
    rw [getElem?_methodsCallbacksAsync]
    exact lastWrite_of_lastEvent Registration.named?_self Registration.named?_of_async? hlast h
  cases last with
  | userToken userid token => exact absurd hargs (by simp [Registration.args?])
  | method name' args onreq =>
      obtain rfl := (Prod.mk.inj (Option.some.inj hargs)).1
      exact Or.inl ⟨onreq, rfl, rfl, hsync rfl⟩
  | signed name' args onreq maxTsRange =>
      obtain rfl := (Prod.mk.inj (Option.some.inj hargs)).1
      exact Or.inl ⟨onreq, rfl, rfl, hsync rfl⟩
  | signedAsync name' args onreq maxTsRange =>
      obtain rfl := (Prod.mk.inj (Option.some.inj hargs)).1
      exact Or.inr ⟨onreq, rfl, rfl, hasync rfl⟩

/-- A last registration that is signed was one at some time. -/
theorem everSigned_of_last (h : last.signed? ≠ none) : EverSigned rs name := by
  have hargs := args?_of_last hlast
  refine ⟨last, (mem_of_last hlast).1, ?_⟩
  cases last with
  | userToken userid token => exact absurd hargs (by simp [Registration.args?])
  | method name' args onreq => exact absurd rfl h
  | signed name' args onreq maxTsRange =>
      exact congrArg some (Prod.ext (Prod.mk.inj (Option.some.inj hargs)).1 rfl)
  | signedAsync name' args onreq maxTsRange =>
      exact congrArg some (Prod.ext (Prod.mk.inj (Option.some.inj hargs)).1 rfl)

end Tables

/-! ## Requests -/

/-- A method noted as asynchronous runs no synchronous callback. -/
theorem invoked_ne_sync_of_isAsync {api : Api} {params : StrMap} {method : Bytes}
    (hmethod : params[ascii "method"]? = some method) (hasync : api.isAsync method = true) (bin : Bool)
    (onreq : StrMap → Bytes) : (api.handleRequest params bin).invoked ≠ [.sync onreq] := by
  have hget := getD_of_getElem? hmethod []
  unfold handleRequest
  cases api.checkFields params with
  | some errMess => simp
  | none =>
      dsimp only
      rw [hget, if_pos hasync]
      cases api.methodsCallbacksAsync[method]? <;> simp

/-- A request that passes the check runs the callback of an asynchronous method. -/
theorem invoked_async_of_accepted {api : Api} {params : StrMap} {method : Bytes} {args : List Bytes} (bin : Bool)
    {onreq : StrMap → List Bytes} (hacc : Accepted api params method args)
    (hasync : api.isAsync method = true) (honreq : api.methodsCallbacksAsync[method]? = some onreq) :
    (api.handleRequest params bin).invoked = [.async onreq] := by
  have hcheck := checkFields_eq_none_iff.mpr ⟨method, args, hacc⟩
  have hget := getD_of_getElem? hacc.hasMethod []
  unfold handleRequest
  rw [hcheck]
  dsimp only
  rw [hget, hasync, if_pos rfl, honreq]

/-- A request that carries a signature has its fields. -/
theorem SignedBy.not_unsigned {api : Api} {params : StrMap} {method userid key ts : Bytes}
    (h : SignedBy api params method userid key ts) : ¬ Unsigned params := by
  have hmem : ∀ {f v : Bytes}, params[f]? = some v → f ∈ params := by
    intro f v hf
    rw [Std.ExtTreeMap.mem_iff_isSome_getElem?, hf]
    rfl
  rintro ⟨f, hf, hnot⟩
  simp only [signFields, List.mem_cons, List.not_mem_nil, or_false] at hf
  rcases hf with rfl | rfl | rfl
  · exact hnot (hmem h.hasUserid)
  · exact hnot (hmem h.hasTs)
  · exact hnot (hmem h.hasSign)

/-! ## The last registration decides -/

section Decides

variable (buildApiError : Bytes → Bytes) {rs : List Registration} {name : Bytes} {last : Registration}
  (hlast : lastWrite Registration.named? name rs = some last)
include hlast

/-- Where the last registration takes nothing back, the method is served as it says. -/
theorem servedBy_of_takesNothingBack (h : TakesNothingBack rs name last) :
    ServedBy (registerAll (.new buildApiError) rs) name last := by
  have hdeclared := methodsArgs_of_last buildApiError hlast
  constructor
  · rintro params bin hmethod hargs ⟨userid, key, ts, hby⟩
    have hacc : Accepted (registerAll (.new buildApiError) rs) params name last.argsNames :=
      ⟨hmethod, hdeclared, hargs, fun _ => ⟨userid, key, ts, hby⟩⟩
    rcases callback_of_last buildApiError hlast with ⟨onreq, hkind, hcb, htable⟩ | ⟨onreq, hkind, hcb, htable⟩
    · -- the user who signed was registered, so the method was never asynchronous
      have hnot : ¬ EverAsync rs name := by
        intro hever
        have hkey := hby.hasKey
        rw [getElem?_keys] at hkey
        obtain ⟨r, hr, htoken⟩ := exists_of_lastWrite hkey
        exact absurd ((h.async hkind hever r hr).symm.trans htoken) (by simp)
      have hasync : (registerAll (.new buildApiError) rs).isAsync name = false :=
        Bool.eq_false_iff.mpr fun hasync => hnot ((isAsync_iff buildApiError name).mp hasync)
      rw [hcb]
      exact invoked_of_accepted bin hacc hasync htable
    · have hasync : (registerAll (.new buildApiError) rs).isAsync name = true :=
        (isAsync_iff buildApiError name).mpr ⟨last, (mem_of_last hlast).1, onreq, hkind⟩
      rw [hcb]
      exact invoked_async_of_accepted bin hacc hasync htable
  · intro params hmethod hargs hunsigned
    constructor
    · intro hcheck
      by_contra hsigned
      have hever := (isSigned_iff buildApiError rs name).mpr (everSigned_of_last hlast hsigned)
      obtain ⟨method, args, hacc⟩ := checkFields_eq_none_iff.mp hcheck
      obtain rfl := Option.some.inj (hmethod.symm.trans hacc.hasMethod)
      obtain ⟨userid, key, ts, hby⟩ := hacc.signed hever
      exact hby.not_unsigned hunsigned
    · intro hsigned
      refine checkFields_eq_none_iff.mpr ⟨name, last.argsNames, hmethod, hdeclared, hargs, ?_⟩
      intro hever
      obtain ⟨f, hf, hnot⟩ := hunsigned
      exact absurd (hargs f (h.signed hsigned ((isSigned_iff buildApiError rs name).mp hever) f hf)) hnot

/-- A method that is served as its last registration says was not asynchronous before a synchronous
    registration: a signed request would run the old callback. -/
theorem async_of_servedBy (h : ServedBy (registerAll (.new buildApiError) rs) name last)
    (hkind : last.async? = none) (hever : EverAsync rs name) : ∀ r ∈ rs, r.token? = none := by
  intro r hr
  by_contra htoken
  obtain ⟨⟨userid, token⟩, htoken⟩ := Option.ne_none_iff_exists'.mp htoken
  obtain ⟨key, hkey⟩ := exists_lastWrite hr htoken
  have hkey' := (getElem?_keys buildApiError rs userid).trans hkey
  have hacc := accepted_signedRequest name last.argsNames [] userid key []
    (methodsArgs_of_last buildApiError hlast) hkey'
  have hinvoked := h.callback _ true hacc.hasMethod hacc.hasArgs
    ⟨userid, key, [], signedBy_signedRequest _ _ _ _ _ _ hkey'⟩
  have hasync := (isAsync_iff buildApiError name).mpr hever
  rcases callback_of_last buildApiError hlast with ⟨onreq, -, hcb, -⟩ | ⟨onreq, hasync?, -, -⟩
  · exact invoked_ne_sync_of_isAsync hacc.hasMethod hasync true onreq
      (hinvoked.trans (congrArg Option.toList hcb))
  · exact absurd (hkind.symm.trans hasync?) (by simp)

omit hlast in
/-- Nor was it signed before a plain registration: an unsigned request would be refused. -/
theorem signed_of_servedBy (h : ServedBy (registerAll (.new buildApiError) rs) name last)
    (hkind : last.signed? = none) (hever : EverSigned rs name) : ∀ f ∈ signFields, f ∈ last.argsNames := by
  intro f hf
  by_contra hnot
  -- the request with the method and its arguments alone
  let params := (fillArgs last.argsNames []).insert (ascii "method") name
  have hparams : ∀ k : Bytes, k ∈ params ↔ k = ascii "method" ∨ k ∈ last.argsNames := by
    intro k
    rw [Std.ExtTreeMap.mem_insert, mem_fillArgs]
    refine or_congr_left ⟨fun heq => (Std.LawfulEqCmp.eq_of_compare heq).symm, ?_⟩
    rintro rfl
    exact Std.ReflCmp.compare_self
  have hmethod : params[ascii "method"]? = some name := Std.ExtTreeMap.getElem?_insert_self
  have hunsigned : Unsigned params := by
    refine ⟨f, hf, ?_⟩
    rw [hparams]
    rintro (rfl | hmem)
    · exact absurd hf (by decide)
    · exact hnot hmem
  have hcheck := (h.unsigned params hmethod (fun arg harg => (hparams arg).mpr (Or.inr harg))
    hunsigned).mpr hkind
  obtain ⟨method, args, hacc⟩ := checkFields_eq_none_iff.mp hcheck
  obtain rfl := Option.some.inj (hmethod.symm.trans hacc.hasMethod)
  obtain ⟨userid, key, ts, hby⟩ := hacc.signed ((isSigned_iff buildApiError rs name).mpr hever)
  exact hby.not_unsigned hunsigned

/-- **The last registration of a method decides how it is served** — which callback a signed request runs,
    and whether an unsigned one is accepted — exactly if it takes nothing back. -/
theorem servedByLast_iff :
    ServedBy (registerAll (.new buildApiError) rs) name last ↔ TakesNothingBack rs name last :=
  ⟨fun h => ⟨async_of_servedBy buildApiError hlast h, signed_of_servedBy buildApiError h⟩,
    servedBy_of_takesNothingBack buildApiError hlast⟩

end Decides

/-- The theorem at a method that was registered as plain and then as signed, with a user who may sign. -/
theorem servedByLast_signedLater :
    ServedBy (registerAll (.new id) [.userToken (ascii "ann") (ascii "key"), .method (ascii "pay") [] fun _ => [],
        .signed (ascii "pay") [] (fun _ => ascii "ok") 15]) (ascii "pay")
      (.signed (ascii "pay") [] (fun _ => ascii "ok") 15) := by
  refine (servedByLast_iff id (by rfl)).mpr ⟨?_, ?_⟩
  · rintro - ⟨r, hr, onreq, hasync⟩
    simp only [List.mem_cons, List.not_mem_nil, or_false] at hr
    rcases hr with rfl | rfl | rfl <;> exact absurd hasync (by simp [Registration.async?])
  · intro hnone
    exact absurd hnone (by simp [Registration.signed?])

/-- **A method that was signed stays signed**: registered again as a plain method, it refuses requests
    without a signature. -/
theorem servedByLast_plainLater :
    lastWrite Registration.named? (ascii "pay")
        [.signed (ascii "pay") [] (fun _ => ascii "ok") 15, .method (ascii "pay") [] fun _ => []] =
        some (.method (ascii "pay") [] fun _ => []) ∧
      ¬ ServedBy (registerAll (.new id) [.signed (ascii "pay") [] (fun _ => ascii "ok") 15,
        .method (ascii "pay") [] fun _ => []]) (ascii "pay") (.method (ascii "pay") [] fun _ => []) := by
  refine ⟨rfl, fun h => ?_⟩
  have hfields := signed_of_servedBy id h rfl ⟨_, List.mem_cons_self, rfl⟩
  exact absurd (hfields (ascii "ts") (by decide)) (by simp [Registration.argsNames, Registration.args?])

end Api
end HttpApi
end Hiaux
