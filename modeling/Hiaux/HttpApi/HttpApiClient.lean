import Hiaux.HttpApi.HttpApi

/-!
# `HttpApi.HttpApiClient` — the client of the API over HTTP

What the client sends for a call: the url, and for a POST its body. The clock is an argument; the transfer
itself is libcurl's.
-/

namespace Hiaux
namespace HttpApi

open Lib

/-- A `hashtable` from strings to strings: its entries in the order its iterator happens to visit them. -/
structure Hashtable where
  entries : List (Bytes × Bytes)
  distinct : (entries.map Prod.fst).Nodup

/-- `HttpApiClient`. -/
structure HttpApiClient where
  url : Bytes
  apiUserid : Bytes
  apiKey : Bytes
  isAuthInfoSet : Bool

namespace HttpApiClient

/-- The constructor with a user and his key. -/
def new (url userid key : Bytes) : HttpApiClient := ⟨url, userid, key, true⟩

/-- The constructor without. -/
def newAnonymous (url : Bytes) : HttpApiClient := ⟨url, [], [], false⟩

/-- `"&" + it->first + "=" + it->second`. -/
def urlParam (kv : Bytes × Bytes) : Bytes := ascii "&" ++ kv.1 ++ ascii "=" ++ kv.2

/-- `HttpApiClient::buildPostRequestUrlSigned` at the time `now`; there is no url if it throws. -/
def buildPostRequestUrlSigned (c : HttpApiClient) (now : UInt64) (method : Bytes) : Option Bytes :=
  if !c.isAuthInfoSet then none
  else
    let ts := decimal now.toNat
    some (c.url ++ ascii "?method=" ++ method ++ ascii "&api_userid=" ++ c.apiUserid ++ ascii "&ts=" ++ ts ++
      ascii "&sign=" ++ Api.signHex method ts c.apiKey)

/-- `HttpApiClient::buildRequestUrlSigned`. -/
def buildRequestUrlSigned (c : HttpApiClient) (now : UInt64) (method : Bytes) (getParams : Hashtable) :
    Option Bytes :=
  (c.buildPostRequestUrlSigned now method).map (fun url => url ++ getParams.entries.flatMap urlParam)

/-- `HttpApiClient::buildRequestUrl`. -/
def buildRequestUrl (c : HttpApiClient) (method : Bytes) (getParams : Hashtable) : Bytes :=
  c.url ++ ascii "?method=" ++ method ++ ascii "&api_userid=" ++ c.apiUserid ++
    getParams.entries.flatMap urlParam

/-- `HttpApiClient::callSignedPost`: the url and the body it hands to `HttpClient::callPost`. -/
def callSignedPost (c : HttpApiClient) (pb : PostProtobuf) (now : UInt64) (method : Bytes)
    (params : Hashtable) : Option (Bytes × Bytes) :=
  (c.buildPostRequestUrlSigned now method).map (fun url =>
    (url, pb.serializeAsString (params.entries.map fun kv => ⟨kv.1, kv.2⟩)))

end HttpApiClient

end HttpApi
end Hiaux
