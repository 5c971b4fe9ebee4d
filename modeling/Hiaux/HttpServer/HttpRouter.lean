import Hiaux.HttpServer.Connection

/-!
# `HttpServer.HttpRouter` — handlers by path

A route is a handler (of any kind `H`) and the headers its responses get. What calling a handler does is a
parameter of `handle`, over the state `σ` of whoever calls: it returns the state after the call and whether
the call has thrown.
-/

namespace Hiaux
namespace HttpServer

open Lib

/-- `HttpRouter::RouteInfo`. -/
structure RouteInfo (H : Type) where
  handler : H
  headers : List Bytes

/-- `HttpRouter`: `m_routes`. -/
abbrev HttpRouter (H : Type) := Std.ExtTreeMap Bytes (RouteInfo H)

namespace HttpRouter

variable {H σ : Type}

/-- `HttpRouter::addRoute`. -/
def addRoute (path : Bytes) (handler : H) (headers : List Bytes) (router : HttpRouter H) : HttpRouter H :=
  router.insert path ⟨handler, headers⟩

/-- The loop of `handle`, from the first `i` characters of the path down to the first one. -/
def findRoute (router : HttpRouter H) (path : Bytes) : Nat → Option (RouteInfo H)
  | 0 => none
  | i + 1 =>
      match router[substr path 0 (i + 1)]? with
      | some info => some info
      | none => findRoute router path i

/-- `HttpRouter::handle`: the handler is called, and the headers of the route are added after it has
    returned. -/
def handle (call : H → HttpRequest → σ → σ × Bool) (addHeader : Bytes → σ → σ) (router : HttpRouter H)
    (req : HttpRequest) (s : σ) : σ × Bool :=
  match findRoute router req.path req.path.length with
  | none => (s, false)
  | some info =>
      let (s, threw) := call info.handler req s
      if threw then (s, true) else (info.headers.foldl (fun s header => addHeader header s) s, false)

end HttpRouter

end HttpServer
end Hiaux
