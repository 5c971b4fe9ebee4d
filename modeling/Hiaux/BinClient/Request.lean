import Hiaux.Lib.Bytes

/-!
# `BinClient.Request` — requests and their protobuf form

`Request.proto` is compiled by the build; the generated class is represented by the message type and by the
two operations the program uses on it, as a parameter (`Protobuf`).
-/

namespace Hiaux
namespace BinClient

open Lib

/-- `hiapi_client::RequestPb`: a method and its parameters, in order. -/
structure RequestPb where
  method : Bytes
  params : List (Bytes × Bytes)
deriving DecidableEq, Repr

/-- The generated class: `SerializeAsString`, and the message `ParseFromString` leaves behind (its result
    is never checked by the program). -/
structure Protobuf where
  serializeAsString : RequestPb → Bytes
  parseFromString : Bytes → RequestPb

/-- What the user passes to `BinClientA::call`, without the callback. -/
structure Call where
  method : Bytes
  params : StrMap

/-- The message `buildRequest` fills in: one entry per parameter, in the order of the map. -/
def Call.toPb (c : Call) : RequestPb := ⟨c.method, c.params.toList⟩

/-- `BinClientA::buildRequest`. -/
def buildRequest (pb : Protobuf) (c : Call) : Bytes := pb.serializeAsString c.toPb

end BinClient
end Hiaux
