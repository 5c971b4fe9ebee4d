import Hiaux.Lib.LastWrite
import Hiaux.HttpApi.HttpApiClient

/-!
# `HttpApi.Correctness.PostBody` — the body of a POST and its reader

The client posts the protobuf message as it is; the server takes the body for base64. The first byte of a
message with an entry is the tag of the entry, a newline, and the decoder stops there. So the server finds no
parameters in any body the client builds.
-/

namespace Hiaux
namespace HttpApi

open Lib

variable {pb : PostProtobuf}

/-- What the decoder finds in a message: nothing. -/
theorem base64Decode_wireFormat (fields : List PostDataField) :
    Base64.base64Decode (wireFormat fields) = [] := by
  cases fields with
  | nil => rfl
  | cons f fields => exact Base64.base64Decode_cons (by decide) _

/-- The parameters are the same after a message was merged into them. -/
theorem mergePostParams_serialize (h : pb.Lawful) (params : StrMap) (fields : List PostDataField) :
    Api.mergePostParams pb params (pb.serializeAsString fields) = params := by
  rw [Api.mergePostParams, h.wire, base64Decode_wireFormat, h.parse_nil]
  rfl

/-- **When the server understands the body of a POST**: exactly if it knows all the parameters before. -/
theorem callSignedPost_understood_iff (h : pb.Lawful) (c : HttpApiClient) (now : UInt64) (method : Bytes)
    (params : Hashtable) (serverParams : StrMap) {url body : Bytes}
    (hcall : c.callSignedPost pb now method params = some (url, body)) :
    Api.mergePostParams pb serverParams body = assignAll serverParams params.entries ↔
      ∀ kv ∈ params.entries, serverParams[kv.1]? = some kv.2 := by
  obtain ⟨_, _, hbody⟩ := Option.map_eq_some_iff.mp hcall
  rw [← (Prod.mk.inj hbody).2, mergePostParams_serialize h, ← assignAll_eq_self_iff params.distinct]
  exact eq_comm

/-- Parameters that are in the url already, and posted again. -/
theorem callSignedPost_understood_again :
    Api.mergePostParams .reference (.ofList [(ascii "ts1", ascii "_ts1_")])
        (wireFormat [⟨ascii "ts1", ascii "_ts1_"⟩]) =
      assignAll (.ofList [(ascii "ts1", ascii "_ts1_")]) [(ascii "ts1", ascii "_ts1_")] := by
  refine (callSignedPost_understood_iff PostProtobuf.reference_lawful
    (.new (ascii "http://127.0.0.1:6732/") (ascii "_userid_") (ascii "_key_")) 0 (ascii "get-stats")
    ⟨[(ascii "ts1", ascii "_ts1_")], by decide⟩ _ rfl).mpr ?_
  intro kv hkv
  obtain rfl := List.mem_singleton.mp hkv
  decide

/-- The parameters of the repository's own test do not arrive. -/
theorem callSignedPost_lost :
    ∃ url body, (HttpApiClient.new (ascii "http://127.0.0.1:6732/") (ascii "_userid_")
        (ascii "_key_")).callSignedPost .reference 0 (ascii "get-stats")
          ⟨[(ascii "ts1", ascii "_ts1_"), (ascii "ts2", ascii "_ts2_")], by decide⟩ = some (url, body) ∧
      Api.mergePostParams .reference ∅ body ≠
        assignAll ∅ [(ascii "ts1", ascii "_ts1_"), (ascii "ts2", ascii "_ts2_")] := by
  refine ⟨_, _, rfl, ?_⟩
  intro h
  rw [mergePostParams_serialize PostProtobuf.reference_lawful] at h
  have hfound : (assignAll (∅ : StrMap)
      [(ascii "ts1", ascii "_ts1_"), (ascii "ts2", ascii "_ts2_")])[ascii "ts1"]? = some (ascii "_ts1_") :=
    getElem?_assignAll_of_mem ∅ (by decide) List.mem_cons_self
  rw [← h] at hfound
  exact absurd hfound (by simp)

end HttpApi
end Hiaux
