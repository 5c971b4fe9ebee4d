import Hiaux.Strings.Correctness.RoundTrip
import Hiaux.HttpApi.Correctness.Authentication
import Hiaux.HttpApi.Correctness.Signature
import Hiaux.HttpApi.HttpApiClient

/-!
# `HttpApi.Correctness.SignedUrl` — the url of a signed call and its reader

The client writes names and values into the url as they are; the server splits the url at its separators and
unescapes every value twice. So the server finds what the client was given exactly if the url could have been
written without escapes (`UrlClean`), and the last value is not empty.
-/

namespace Hiaux
namespace HttpApi

open Lib Strings

/-- A text that a value of a query may be: no separator, no escape, no NUL. -/
def Plain (s : Bytes) : Prop := SeparatorFree s ∧ escapeFree s = true ∧ 0 ∉ s

instance (s : Bytes) : Decidable (Plain s) := inferInstanceAs (Decidable (_ ∧ _ ∧ _))

/-! ## Digits -/

/-- Letters and digits make a plain text. -/
theorem plain_of_forall {s : Bytes} (h : ∀ b ∈ s, isSeparator b = false ∧ b ≠ 37 ∧ b ≠ 0) : Plain s :=
  ⟨fun b hb => (h b hb).1, escapeFree_of_not_mem fun hmem => (h 37 hmem).2.1 rfl,
    fun hmem => (h 0 hmem).2.2 rfl⟩

theorem plain_decimal (n : Nat) : Plain (decimal n) := by
  refine plain_of_forall fun b hb => ?_
  have hdigit := decimal_isDigit hb
  have hne : ∀ c : UInt8, isDigit c = false → b ≠ c := by
    rintro c hc rfl
    exact absurd (hdigit.symm.trans hc) (by simp)
  refine ⟨?_, hne 37 rfl, hne 0 rfl⟩
  simp [isSeparator, hne 63 rfl, hne 61 rfl, hne 38 rfl]

theorem hexDigit_mem {n : UInt8} (h : n.toNat < 16) : Sha1.hexDigit n ∈ ascii "0123456789abcdef" := by
  have hlen : n.toNat < (ascii "0123456789abcdef").length := h
  rw [Sha1.hexDigit, List.getD_eq_getElem?_getD, List.getElem?_eq_getElem hlen]
  exact List.getElem_mem hlen

theorem plain_signHex (method ts key : Bytes) : Plain (Api.signHex method ts key) := by
  refine plain_of_forall fun b hb => ?_
  obtain ⟨byte, -, hbyte⟩ := List.mem_flatMap.mp hb
  have hmem : b ∈ ascii "0123456789abcdef" := by
    rcases List.mem_cons.mp hbyte with rfl | hbyte
    · refine hexDigit_mem ?_
      have hlt := byte.toNat_lt
      rw [UInt8.toNat_shiftRight]
      show byte.toNat >>> 4 < 16
      rw [Nat.shiftRight_eq_div_pow]
      omega
    · rw [List.mem_singleton.mp hbyte]
      refine hexDigit_mem ?_
      rw [UInt8.toNat_and]
      exact Nat.lt_succ_of_le Nat.and_le_right
  have hall : ∀ c ∈ ascii "0123456789abcdef", isSeparator c = false ∧ c ≠ 37 ∧ c ≠ 0 := by decide +kernel
  exact hall b hmem

theorem signHex_ne_nil (method ts key : Bytes) : Api.signHex method ts key ≠ [] := by
  simp [Api.signHex, Sha1.toHexString, Sha1.calcHash, Sha1.storeHash]

/-! ## The url -/

/-- The parameters of a signed request: its service fields, and what the caller passed. -/
def signedParams (c : HttpApiClient) (now : UInt64) (method : Bytes) (params : Hashtable) :
    List (Bytes × Bytes) :=
  (ascii "method", method) :: (ascii "api_userid", c.apiUserid) :: (ascii "ts", decimal now.toNat) ::
    (ascii "sign", Api.signHex method (decimal now.toNat) c.apiKey) :: params.entries

/-- A signed url is the url of the server and the query of the parameters. -/
theorem buildRequestUrlSigned_eq (c : HttpApiClient) (now : UInt64) (method : Bytes) (params : Hashtable) :
    c.buildRequestUrlSigned now method params = if c.isAuthInfoSet then
      some (c.url ++ queryOf (ascii "method", method) (signedParams c now method params).tail) else none := by
  have hone : HttpApiClient.urlParam = fun q => 38 :: entry q :=
    funext fun q => by simp [HttpApiClient.urlParam, entry, ascii]
  unfold HttpApiClient.buildRequestUrlSigned HttpApiClient.buildPostRequestUrlSigned
  rw [hone]
  cases c.isAuthInfoSet with
  | false => rfl
  | true => simp [queryOf, signedParams, entry, ascii]

theorem query_of_buildRequestUrlSigned {c : HttpApiClient} {now : UInt64} {method query : Bytes}
    {params : Hashtable} (h : c.buildRequestUrlSigned now method params = some (c.url ++ query)) :
    query = queryOf (ascii "method", method) (signedParams c now method params).tail := by
  rw [buildRequestUrlSigned_eq] at h
  split at h
  · exact (List.append_cancel_left (Option.some.inj h)).symm
  · exact absurd h (by simp)

/-- **The url can be read back as it is**: no separator, escape or NUL where it does not belong, and
    something behind the last `=`. -/
structure UrlClean (method userid : Bytes) (params : Hashtable) : Prop where
  plainMethod : Plain method
  plainUserid : Plain userid
  plainParams : ∀ kv ∈ params.entries, SeparatorFree kv.1 ∧ Plain kv.2
  lastValue : ∀ kv, params.entries.getLast? = some kv → kv.2 ≠ []

/-- The server finds the parameters of a signed call in the query, and an API that knows the user and
    declares the method with arguments among the parameters accepts them. -/
structure Understood (curlUnescape : Bytes → Bytes) (c : HttpApiClient) (now : UInt64) (method : Bytes)
    (params : Hashtable) (request : Bytes) : Prop where
  parsed : parseGET curlUnescape request ∅ = assignAll ∅ (signedParams c now method params)
  accepted : ∀ (api : Api) (args : List Bytes), api.keys[c.apiUserid]? = some c.apiKey →
    api.methodsArgs[method]? = some args → api.isSigned method = true →
    (∀ arg ∈ args, arg ∈ params.entries.map Prod.fst) →
    api.checkFields (parseGET curlUnescape request ∅) = none

section SignedParams

variable {c : HttpApiClient} {now : UInt64} {method : Bytes} {params : Hashtable}

theorem signedParams_distinct (hnames : ∀ kv ∈ params.entries, kv.1 ≠ [] ∧ kv.1 ∉ Api.serviceFields) :
    ((signedParams c now method params).map Prod.fst).Nodup := by
  have hservice : ∀ name ∈ Api.serviceFields, name ∉ params.entries.map Prod.fst := by
    intro name hname hmem
    obtain ⟨kv, hkv, rfl⟩ := List.mem_map.mp hmem
    exact (hnames kv hkv).2 hname
  have happ : (signedParams c now method params).map Prod.fst =
      Api.serviceFields ++ params.entries.map Prod.fst := rfl
  rw [happ]
  refine List.nodup_append.mpr ⟨by decide, params.distinct, ?_⟩
  rintro name hname _ hmem rfl
  exact hservice name hname hmem

theorem signedParams_names (hnames : ∀ kv ∈ params.entries, kv.1 ≠ [] ∧ kv.1 ∉ Api.serviceFields) :
    ∀ kv ∈ signedParams c now method params, kv.1 ≠ [] := by
  intro kv hkv
  simp only [signedParams, List.mem_cons] at hkv
  rcases hkv with rfl | rfl | rfl | rfl | hkv
  · exact (by decide : ascii "method" ≠ [])
  · exact (by decide : ascii "api_userid" ≠ [])
  · exact (by decide : ascii "ts" ≠ [])
  · exact (by decide : ascii "sign" ≠ [])
  · exact (hnames kv hkv).1

/-- The parameters of a signed call pass the check. -/
theorem accepted_signedParams (hdistinct : ((signedParams c now method params).map Prod.fst).Nodup)
    {api : Api} {args : List Bytes} (hkey : api.keys[c.apiUserid]? = some c.apiKey)
    (hargs : api.methodsArgs[method]? = some args)
    (hamong : ∀ arg ∈ args, arg ∈ params.entries.map Prod.fst) :
    Api.Accepted api (assignAll ∅ (signedParams c now method params)) method args := by
  have hfound : ∀ {name value : Bytes}, (name, value) ∈ signedParams c now method params →
      (assignAll (∅ : StrMap) (signedParams c now method params))[name]? = some value :=
    fun hmem => getElem?_assignAll_of_mem ∅ hdistinct hmem
  refine ⟨hfound (by simp [signedParams]), hargs, ?_, fun _ => ⟨c.apiUserid, c.apiKey, decimal now.toNat,
    hfound (by simp [signedParams]), hkey, hfound (by simp [signedParams]),
    hfound (by simp [signedParams])⟩⟩
  intro arg harg
  obtain ⟨⟨name, value⟩, hkv, rfl⟩ := List.mem_map.mp (hamong arg harg)
  have hmem : (name, value) ∈ signedParams c now method params := by simp [signedParams, hkv]
  rw [Std.ExtTreeMap.mem_iff_isSome_getElem?, hfound hmem]
  rfl

/-- The last parameter of the url: the signature, if the caller passed none. -/
theorem lastValue_iff : ((signedParams c now method params).tail.getLastD (ascii "method", method)).2 ≠ [] ↔
    ∀ kv, params.entries.getLast? = some kv → kv.2 ≠ [] := by
  have htail : (signedParams c now method params).tail.getLastD (ascii "method", method) =
      params.entries.getLastD (ascii "sign", Api.signHex method (decimal now.toNat) c.apiKey) := by
    rw [signedParams, List.tail_cons, List.getLastD_cons, List.getLastD_cons, List.getLastD_cons]
  rw [htail]
  rcases List.eq_nil_or_concat params.entries with hnil | ⟨init, q, hconcat⟩
  · rw [hnil]
    exact iff_of_true (signHex_ne_nil _ _ _) (fun kv hkv => absurd hkv (by simp))
  · rw [hconcat, List.concat_eq_append, List.getLastD_concat, List.getLast?_concat]
    exact ⟨fun h kv hkv => Option.some.inj hkv ▸ h, fun h => h q rfl⟩

/-- A url is clean exactly if its parameters are. -/
theorem urlClean_iff : UrlClean method c.apiUserid params ↔
    (∀ q ∈ signedParams c now method params,
      SeparatorFree q.1 ∧ SeparatorFree q.2 ∧ escapeFree q.2 = true ∧ 0 ∉ q.2) ∧
      ((signedParams c now method params).tail.getLastD (ascii "method", method)).2 ≠ [] := by
  rw [lastValue_iff]
  constructor
  · intro h
    refine ⟨?_, h.lastValue⟩
    intro q hq
    simp only [signedParams, List.mem_cons] at hq
    rcases hq with rfl | rfl | rfl | rfl | hq
    · exact ⟨(by decide +kernel : SeparatorFree (ascii "method")), h.plainMethod⟩
    · exact ⟨(by decide +kernel : SeparatorFree (ascii "api_userid")), h.plainUserid⟩
    · exact ⟨(by decide +kernel : SeparatorFree (ascii "ts")), plain_decimal _⟩
    · exact ⟨(by decide +kernel : SeparatorFree (ascii "sign")), plain_signHex _ _ _⟩
    · exact h.plainParams q hq
  · rintro ⟨hclean, hlast⟩
    refine ⟨?_, ?_, ?_, hlast⟩
    · exact (hclean (ascii "method", method) (by simp [signedParams])).2
    · exact (hclean (ascii "api_userid", c.apiUserid) (by simp [signedParams])).2
    · intro kv hkv
      exact hclean kv (by simp [signedParams, hkv])

end SignedParams

/-- **When the server understands the url of a signed call.** -/
theorem signedUrl_understood_iff {curlUnescape : Bytes → Bytes}
    (hcurl : ∀ s, curlUnescape s = percentDecode s) (c : HttpApiClient) (now : UInt64) (method : Bytes)
    (params : Hashtable) (hnames : ∀ kv ∈ params.entries, kv.1 ≠ [] ∧ kv.1 ∉ Api.serviceFields)
    {path query : Bytes} (hpath : SeparatorFree path)
    (hurl : c.buildRequestUrlSigned now method params = some (c.url ++ query)) :
    Understood curlUnescape c now method params (path ++ query) ↔ UrlClean method c.apiUserid params := by
  have hdistinct : ((signedParams c now method params).map Prod.fst).Nodup := signedParams_distinct hnames
  obtain rfl := query_of_buildRequestUrlSigned hurl
  have hback := parseGET_queryOf_iff hcurl hdistinct (signedParams_names hnames)
  rw [← parseGET_append_queryOf hpath] at hback
  have hparsed : parseGET curlUnescape _ ∅ = assignAll ∅ (signedParams c now method params) ↔ _ :=
    hback.trans urlClean_iff.symm
  constructor
  · exact fun h => hparsed.mp h.parsed
  · intro hclean
    have h := hparsed.mpr hclean
    refine ⟨h, fun api args hkey hargs _ hamong => ?_⟩
    rw [signedParams, List.tail_cons, h]
    exact Api.checkFields_eq_none_iff.mpr ⟨method, args, accepted_signedParams hdistinct hkey hargs hamong⟩

/-- A search for a word. -/
theorem search_understood : Understood percentDecode (.new (ascii "http://127.0.0.1") (ascii "ann") (ascii "key"))
    0 (ascii "search") ⟨[(ascii "q", ascii "hiaux")], by decide⟩
    (ascii "/" ++ queryOf (ascii "method", ascii "search")
      (signedParams (.new (ascii "http://127.0.0.1") (ascii "ann") (ascii "key")) 0 (ascii "search")
        ⟨[(ascii "q", ascii "hiaux")], by decide⟩).tail) := by
  refine (signedUrl_understood_iff (fun _ => rfl) _ 0 _ _ (by decide +kernel) (by decide +kernel)
    ((buildRequestUrlSigned_eq ..).trans rfl)).mpr ⟨by decide +kernel, by decide +kernel, by decide +kernel, ?_⟩
  intro kv hkv
  obtain rfl := Option.some.inj hkv
  decide

/-- A search for `R&D`. -/
theorem search_not_understood : ∃ url query,
    (HttpApiClient.new url (ascii "ann") (ascii "key")).buildRequestUrlSigned 0 (ascii "search")
      ⟨[(ascii "q", ascii "R&D")], by decide⟩ = some (url ++ query) ∧
    ¬ Understood percentDecode (.new url (ascii "ann") (ascii "key")) 0 (ascii "search")
      ⟨[(ascii "q", ascii "R&D")], by decide⟩ query := by
  refine ⟨ascii "http://127.0.0.1/", _, (buildRequestUrlSigned_eq ..).trans rfl, ?_⟩
  intro h
  have hclean := (parseGET_queryOf_iff (fun _ => rfl)
    (signedParams_distinct (by decide)) (signedParams_names (by decide))).mp h.parsed
  have hvalue := (hclean.1 (ascii "q", ascii "R&D") (by simp)).2.1
  exact absurd hvalue (by decide)

end HttpApi
end Hiaux
