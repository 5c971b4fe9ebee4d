import Hiaux.HttpApi.Correctness.Authentication

/-!
# `HttpApi.Correctness.Signature` — what a signature is bound to

The signature of a request is the hash of method, time stamp and key, written one after the other. The
arguments are not in it, and where the method ends is not marked; so one signature serves for any values of
the arguments, and for every pair of methods one of which begins with the other (`signatureBound_iff`). The
time stamp is in it but is compared with nothing, so a signature never expires (`windowKept_iff`).
-/

namespace Hiaux
namespace HttpApi
namespace Api

open Lib HttpServer

/-! ## Signed requests -/

/-- The names of the fields a signed request has besides its arguments. -/
def serviceFields : List Bytes := [ascii "method", ascii "api_userid", ascii "ts", ascii "sign"]

/-- The arguments of a request, all with the same value. -/
def fillArgs (args : List Bytes) (value : Bytes) : StrMap :=
  args.foldr (fun arg fields => fields.insert arg value) ∅

/-- A request signed with `key`. -/
def signedRequest (method : Bytes) (args : List Bytes) (value userid key ts : Bytes) : StrMap :=
  ((((fillArgs args value).insert (ascii "method") method).insert (ascii "api_userid") userid).insert
    (ascii "ts") ts).insert (ascii "sign") (signHex method ts key)

theorem getElem?_fillArgs {args : List Bytes} {arg : Bytes} (value : Bytes) (h : arg ∈ args) :
    (fillArgs args value)[arg]? = some value := by
  induction args with
  | nil => exact absurd h List.not_mem_nil
  | cons a args ih =>
      show ((fillArgs args value).insert a value)[arg]? = some value
      rw [Std.ExtTreeMap.getElem?_insert]
      split
      · rfl
      · rename_i hne
        rcases List.mem_cons.mp h with rfl | h
        · exact absurd Std.ReflCmp.compare_self hne
        · exact ih h

theorem mem_fillArgs {args : List Bytes} {value arg : Bytes} : arg ∈ fillArgs args value ↔ arg ∈ args := by
  induction args with
  | nil => exact iff_of_false Std.ExtTreeMap.not_mem_empty List.not_mem_nil
  | cons a args ih =>
      show arg ∈ (fillArgs args value).insert a value ↔ _
      rw [Std.ExtTreeMap.mem_insert, ih, List.mem_cons]
      refine or_congr_left ⟨fun heq => (Std.LawfulEqCmp.eq_of_compare heq).symm, ?_⟩
      rintro rfl
      exact Std.ReflCmp.compare_self

section SignedRequest

variable (method : Bytes) (args : List Bytes) (value userid key ts : Bytes)

theorem getElem?_signedRequest (name : Bytes) : (signedRequest method args value userid key ts)[name]? =
    if name = ascii "sign" then some (signHex method ts key)
    else if name = ascii "ts" then some ts
    else if name = ascii "api_userid" then some userid
    else if name = ascii "method" then some method
    else (fillArgs args value)[name]? := by
  have hkey : ∀ k : Bytes, (compare k name = .eq) = (name = k) := fun k =>
    propext ⟨fun h => (Std.LawfulEqCmp.eq_of_compare h).symm, fun h => h ▸ Std.ReflCmp.compare_self⟩
  simp only [signedRequest, Std.ExtTreeMap.getElem?_insert, hkey]

/-- Arguments that are not service fields have the value they were filled with. -/
theorem getElem?_signedRequest_arg {arg : Bytes} (harg : arg ∈ args) (hnot : arg ∉ serviceFields) :
    (signedRequest method args value userid key ts)[arg]? = some value := by
  simp only [serviceFields, List.mem_cons, List.not_mem_nil, or_false, not_or] at hnot
  obtain ⟨hmethod, huserid, hts, hsign⟩ := hnot
  rw [getElem?_signedRequest, if_neg hsign, if_neg hts, if_neg huserid, if_neg hmethod,
    getElem?_fillArgs value harg]

theorem signedBy_signedRequest {api : Api} (hkey : api.keys[userid]? = some key) :
    SignedBy api (signedRequest method args value userid key ts) method userid key ts := by
  refine ⟨?_, hkey, ?_, ?_⟩
  · rw [getElem?_signedRequest, if_neg (by decide), if_neg (by decide), if_pos rfl]
  · rw [getElem?_signedRequest, if_neg (by decide), if_pos rfl]
  · rw [getElem?_signedRequest, if_pos rfl]

theorem getElem?_signedRequest_method :
    (signedRequest method args value userid key ts)[ascii "method"]? = some method := by
  rw [getElem?_signedRequest, if_neg (by decide), if_neg (by decide), if_neg (by decide), if_pos rfl]

/-- A signed request is accepted, whatever its arguments and its time stamp are. -/
theorem accepted_signedRequest {api : Api} (hargs : api.methodsArgs[method]? = some args)
    (hkey : api.keys[userid]? = some key) :
    Accepted api (signedRequest method args value userid key ts) method args := by
  refine ⟨getElem?_signedRequest_method .., hargs, ?_,
    fun _ => ⟨userid, key, ts, signedBy_signedRequest _ _ _ _ _ _ hkey⟩⟩
  intro arg harg
  rw [Std.ExtTreeMap.mem_iff_isSome_getElem?, getElem?_signedRequest, getElem?_fillArgs value harg]
  repeat' split
  all_goals rfl

end SignedRequest

/-! ## Two requests with one signature -/

/-- The string a signature is the hash of. -/
def signRaw (method ts key : Bytes) : Bytes := method ++ ts ++ key

/-- Two requests that were accepted for signed methods with the same user and the same signature. -/
structure SameSignature (api : Api) (p q : StrMap) (method method' userid key ts ts' : Bytes)
    (args args' : List Bytes) : Prop where
  left : Accepted api p method args
  right : Accepted api q method' args'
  leftSigned : api.isSigned method = true
  rightSigned : api.isSigned method' = true
  leftBy : SignedBy api p method userid key ts
  rightBy : SignedBy api q method' userid key ts'
  sameSign : p[ascii "sign"]? = q[ascii "sign"]?

/-- A signature is bound to its request: unless the hash collides on the two strings involved, two requests
    with one signature have the same method, the same time stamp and the same values of the declared
    arguments. -/
def SignatureBound (api : Api) : Prop :=
  ∀ {p q : StrMap} {method method' userid key ts ts' : Bytes} {args args' : List Bytes},
    SameSignature api p q method method' userid key ts ts' args args' →
    (signHex method ts key = signHex method' ts' key → signRaw method ts key = signRaw method' ts' key) →
    method = method' ∧ ts = ts' ∧ ∀ arg ∈ args, p[arg]? = q[arg]?

/-- No user is registered. -/
def NoUsers (api : Api) : Prop := ∀ userid : Bytes, api.keys[userid]? = none

/-- The signed methods declare no arguments but service fields. -/
def OnlyServiceArgs (api : Api) : Prop :=
  ∀ {method args}, api.methodsArgs[method]? = some args → api.isSigned method = true →
    ∀ arg ∈ args, arg ∈ serviceFields

/-- No signed method begins with another one. -/
def PrefixFree (api : Api) : Prop :=
  ∀ {method method' args args'}, api.methodsArgs[method]? = some args → api.isSigned method = true →
    api.methodsArgs[method']? = some args' → api.isSigned method' = true → method <+: method' →
    method = method'

/-- Accepted signed requests for the same string have the same values of the service fields if no method
    begins with another one. -/
theorem SameSignature.method_ts_eq {api : Api} {p q : StrMap} {method method' userid key ts ts' : Bytes}
    {args args' : List Bytes} (h : SameSignature api p q method method' userid key ts ts' args args')
    (hfree : PrefixFree api) (hraw : signRaw method ts key = signRaw method' ts' key) :
    method = method' ∧ ts = ts' := by
  have happ : method ++ ts = method' ++ ts' := List.append_cancel_right hraw
  have hmethod : method = method' := by
    rcases List.prefix_or_prefix_of_prefix (List.prefix_append method ts)
      (happ ▸ List.prefix_append method' ts') with hpre | hpre
    · exact hfree h.left.declared h.leftSigned h.right.declared h.rightSigned hpre
    · exact (hfree h.right.declared h.rightSigned h.left.declared h.leftSigned hpre).symm
  subst hmethod
  exact ⟨rfl, List.append_cancel_left happ⟩

/-- Two requests that were built with one hash. -/
theorem SameSignature.of_signedRequests {api : Api} {method method' : Bytes} {args args' : List Bytes}
    {userid key ts ts' : Bytes} (value value' : Bytes) (hargs : api.methodsArgs[method]? = some args)
    (hargs' : api.methodsArgs[method']? = some args') (hsigned : api.isSigned method = true)
    (hsigned' : api.isSigned method' = true) (hkey : api.keys[userid]? = some key)
    (hhash : signHex method ts key = signHex method' ts' key) :
    SameSignature api (signedRequest method args value userid key ts)
      (signedRequest method' args' value' userid key ts') method method' userid key ts ts' args args' where
  left := accepted_signedRequest _ _ _ _ _ _ hargs hkey
  right := accepted_signedRequest _ _ _ _ _ _ hargs' hkey
  leftSigned := hsigned
  rightSigned := hsigned'
  leftBy := signedBy_signedRequest _ _ _ _ _ _ hkey
  rightBy := signedBy_signedRequest _ _ _ _ _ _ hkey
  sameSign := by rw [getElem?_signedRequest, getElem?_signedRequest, if_pos rfl, if_pos rfl, hhash]

/-- An argument outside the service fields can be replaced under a signature. -/
theorem onlyServiceArgs_of_signatureBound {api : Api} (h : SignatureBound api) {userid key : Bytes}
    (hkey : api.keys[userid]? = some key) : OnlyServiceArgs api := by
  intro method args hargs hsigned arg harg
  by_contra hnot
  have hsame : SameSignature api (signedRequest method args [] userid key [])
      (signedRequest method args [0] userid key []) method method userid key [] [] args args :=
    .of_signedRequests [] [0] hargs hargs hsigned hsigned hkey rfl
  have heq := (h hsame fun _ => rfl).2.2 arg harg
  rw [getElem?_signedRequest_arg _ _ _ _ _ _ harg hnot, getElem?_signedRequest_arg _ _ _ _ _ _ harg hnot]
    at heq
  exact absurd heq (by decide)

/-- The rest of a longer method can be moved into the time stamp under a signature. -/
theorem prefixFree_of_signatureBound {api : Api} (h : SignatureBound api) {userid key : Bytes}
    (hkey : api.keys[userid]? = some key) : PrefixFree api := by
  rintro method - args args' hargs hsigned hargs' hsigned' ⟨rest, rfl⟩
  have hraw : signRaw method rest key = signRaw (method ++ rest) [] key := by
    simp [signRaw]
  have hhash : signHex method rest key = signHex (method ++ rest) [] key := by
    simp [signHex]
  have hsame : SameSignature api (signedRequest method args [] userid key rest)
      (signedRequest (method ++ rest) args' [] userid key []) method (method ++ rest) userid key rest []
      args args' :=
    .of_signedRequests [] [] hargs hargs' hsigned hsigned' hkey hhash
  exact (h hsame fun _ => hraw).1

/-- **When a signature is bound to its request**: exactly if nobody can sign, or the signed methods declare
    no arguments of their own and none of them begins with another. -/
theorem signatureBound_iff (api : Api) :
    SignatureBound api ↔ NoUsers api ∨ OnlyServiceArgs api ∧ PrefixFree api := by
  constructor
  · intro h
    by_cases hnone : NoUsers api
    · exact Or.inl hnone
    · obtain ⟨userid, huserid⟩ := not_forall.mp hnone
      obtain ⟨key, hkey⟩ := Option.ne_none_iff_exists'.mp huserid
      exact Or.inr ⟨onlyServiceArgs_of_signatureBound h hkey, prefixFree_of_signatureBound h hkey⟩
  · rintro (hnone | ⟨hargs, hfree⟩)
    · intro p q method method' userid key ts ts' args args' hsame _
      exact absurd (hsame.leftBy.hasKey.symm.trans (hnone userid)) (by simp)
    · intro p q method method' userid key ts ts' args args' hsame hcollide
      have hsign : signHex method ts key = signHex method' ts' key :=
        Option.some.inj (hsame.leftBy.hasSign.symm.trans (hsame.sameSign.trans hsame.rightBy.hasSign))
      obtain ⟨hmethod, hts⟩ := hsame.method_ts_eq hfree (hcollide hsign)
      refine ⟨hmethod, hts, ?_⟩
      intro arg harg
      -- the service fields are the ones a signature and its user determine
      have hservice := hargs hsame.left.declared hsame.leftSigned arg harg
      simp only [serviceFields, List.mem_cons, List.not_mem_nil, or_false] at hservice
      rcases hservice with rfl | rfl | rfl | rfl
      · rw [hsame.left.hasMethod, hsame.right.hasMethod, hmethod]
      · rw [hsame.leftBy.hasUserid, hsame.rightBy.hasUserid]
      · rw [hsame.leftBy.hasTs, hsame.rightBy.hasTs, hts]
      · exact hsame.sameSign

/-- A payment of 5 and a payment of 5000 carry the same signature. -/
theorem payment_sum_not_bound : ¬ SignatureBound (registerAll (.new id) paymentRegistrations) := by
  intro h
  have hsame : SameSignature (registerAll (.new id) paymentRegistrations)
      (signedRequest (ascii "pay") [ascii "sum"] (ascii "5") (ascii "ann") (ascii "key") (ascii "1"))
      (signedRequest (ascii "pay") [ascii "sum"] (ascii "5000") (ascii "ann") (ascii "key") (ascii "1"))
      (ascii "pay") (ascii "pay") (ascii "ann") (ascii "key") (ascii "1") (ascii "1") [ascii "sum"]
      [ascii "sum"] :=
    .of_signedRequests _ _ rfl rfl rfl rfl rfl rfl
  have heq := (h hsame fun _ => rfl).2.2 (ascii "sum") List.mem_cons_self
  rw [getElem?_signedRequest_arg _ _ _ _ _ _ List.mem_cons_self (by decide),
    getElem?_signedRequest_arg _ _ _ _ _ _ List.mem_cons_self (by decide)] at heq
  exact absurd heq (by decide)

/-! ## The time stamp -/

/-- A time stamp that is a decimal number at most `range` away from `now`. -/
def InWindow (now range : Nat) (ts : Bytes) : Prop :=
  ts ≠ [] ∧ (∀ b ∈ ts, isDigit b = true) ∧ now ≤ digitsValue ts + range ∧ digitsValue ts ≤ now + range

/-- Whatever the time is, a request for a signed method is accepted only if its time stamp lies within the
    range of the last signed registration of the method. -/
def WindowKept (buildApiError : Bytes → Bytes) (rs : List Registration) : Prop :=
  ∀ (now : Nat) (params : StrMap) {method : Bytes} {range : Nat},
    params[ascii "method"]? = some method → lastWrite Registration.maxTsRange? method rs = some range →
    (registerAll (.new buildApiError) rs).checkFields params = none →
    ∃ ts, params[ascii "ts"]? = some ts ∧ InWindow now range ts

/-- A signed registration declares its method. -/
theorem signed_of_maxTsRange {r : Registration} {method : Bytes} {range : Nat}
    (h : r.maxTsRange? = some (method, range)) :
    r.signed? = some (method, true) ∧ ∃ args, r.args? = some (method, args) := by
  cases r with
  | userToken userid token => exact absurd h (by simp [Registration.maxTsRange?])
  | method name argsNames onreq => exact absurd h (by simp [Registration.maxTsRange?])
  | signed name argsNames onreq maxTsRange =>
      obtain ⟨rfl, -⟩ := Prod.mk.inj (Option.some.inj h)
      exact ⟨rfl, argsNames, rfl⟩
  | signedAsync name argsNames onreq maxTsRange =>
      obtain ⟨rfl, -⟩ := Prod.mk.inj (Option.some.inj h)
      exact ⟨rfl, argsNames, rfl⟩

/-- **The window is kept only where nobody can sign**: exactly if no user or no signed method is
    registered. -/
theorem windowKept_iff (buildApiError : Bytes → Bytes) (rs : List Registration) :
    WindowKept buildApiError rs ↔
      (∀ r ∈ rs, r.token? = none) ∨ (∀ r ∈ rs, r.maxTsRange? = none) := by
  constructor
  · intro h
    by_contra hnot
    simp only [not_or, not_forall] at hnot
    obtain ⟨⟨r, hr, htoken⟩, r', hr', hrange⟩ := hnot
    obtain ⟨⟨userid, token⟩, htoken⟩ := Option.ne_none_iff_exists'.mp htoken
    obtain ⟨⟨method, range⟩, hrange⟩ := Option.ne_none_iff_exists'.mp hrange
    obtain ⟨hsigned, args, hargs⟩ := signed_of_maxTsRange hrange
    obtain ⟨key, hkey⟩ := exists_lastWrite hr htoken
    obtain ⟨range', hrange'⟩ := exists_lastWrite hr' hrange
    obtain ⟨args', hargs'⟩ := exists_lastWrite hr' hargs
    -- a signed request whose time stamp is no number
    have hacc := accepted_signedRequest method args' [] userid key [0]
      ((getElem?_methodsArgs buildApiError rs method).trans hargs')
      ((getElem?_keys buildApiError rs userid).trans hkey)
    have hby := signedBy_signedRequest method args' [] userid key [0]
      ((getElem?_keys buildApiError rs userid).trans hkey)
    obtain ⟨ts, hts, -, hdigits, -⟩ := h 0 _ hacc.hasMethod hrange'
      (checkFields_eq_none_iff.mpr ⟨method, args', hacc⟩)
    obtain rfl : [0] = ts := Option.some.inj (hby.hasTs.symm.trans hts)
    exact absurd (hdigits 0 List.mem_cons_self) (by decide)
  · intro hnone now params method range hmethod hrange hcheck
    exfalso
    obtain ⟨method', args, hacc⟩ := checkFields_eq_none_iff.mp hcheck
    obtain rfl := Option.some.inj (hmethod.symm.trans hacc.hasMethod)
    obtain ⟨r, hr, hrange⟩ := exists_of_lastWrite hrange
    have hsigned := (isSigned_iff buildApiError rs method).mpr ⟨r, hr, (signed_of_maxTsRange hrange).1⟩
    obtain ⟨userid, key, ts, hby⟩ := hacc.signed hsigned
    have hkey := (getElem?_keys buildApiError rs userid).symm.trans hby.hasKey
    obtain ⟨r', hr', htoken⟩ := exists_of_lastWrite hkey
    rcases hnone with hnone | hnone
    · exact absurd ((hnone r' hr').symm.trans htoken) (by simp)
    · exact absurd ((hnone r hr).symm.trans hrange) (by simp)

/-- A payment of 1970 is accepted half a century later. -/
theorem payment_replayed : ¬ WindowKept id paymentRegistrations := by
  intro h
  have hacc := accepted_payment
  obtain ⟨ts, hts, hwindow⟩ := h 1500000000 _ hacc.hasMethod rfl
    (checkFields_eq_none_iff.mpr ⟨ascii "pay", [ascii "sum"], hacc⟩)
  generalize signHex (ascii "pay") (ascii "1") (ascii "key") = sign at hts
  obtain rfl : ascii "1" = ts := Option.some.inj hts
  exact absurd hwindow.2.2.1 (by decide)

end Api
end HttpApi
end Hiaux
