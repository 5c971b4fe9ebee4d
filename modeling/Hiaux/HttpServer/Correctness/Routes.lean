import Hiaux.HttpServer.HttpRouter
import Hiaux.Lib.LastWrite

/-!
# `HttpServer.Correctness.Routes` — which handler the router calls

The table holds the last registration of each path, and the loop of `handle` looks the prefixes of the request
path up, the longest one first. What `handle` does is seen in a record that is kept beside the state of whoever
calls it.
-/

namespace Hiaux
namespace HttpServer

open Lib

namespace HttpRouter

variable {H σ : Type}

/-! ## Registration -/

/-- The router after some calls of `addRoute`. -/
def addRoutes (routes : List (Bytes × RouteInfo H)) : HttpRouter H :=
  routes.foldl (fun router route => router.addRoute route.1 route.2.handler route.2.headers) ∅

/-- The most recent registration of a path. -/
def LastRoute (routes : List (Bytes × RouteInfo H)) (path : Bytes) (info : RouteInfo H) : Prop :=
  ∃ earlier later, routes = earlier ++ (path, info) :: later ∧ path ∉ later.map Prod.fst

/-- A registered path that is a non-empty prefix of the path of a request. -/
def Matches (routes : List (Bytes × RouteInfo H)) (request path : Bytes) : Prop :=
  path ∈ routes.map Prod.fst ∧ path ≠ [] ∧ path <+: request

instance (routes : List (Bytes × RouteInfo H)) (request path : Bytes) : Decidable (Matches routes request path) :=
  inferInstanceAs (Decidable (_ ∧ _ ∧ _))

variable {routes : List (Bytes × RouteInfo H)} {path request : Bytes} {info : RouteInfo H}

theorem getElem?_addRoutes_iff : (addRoutes routes)[path]? = some info ↔ LastRoute routes path info :=
  getElem?_assignAll_eq_some_iff

theorem getElem?_addRoutes_eq_none_iff : (addRoutes routes)[path]? = none ↔ path ∉ routes.map Prod.fst :=
  getElem?_assignAll_eq_none_iff

/-! ## The loop -/

/-- **What the loop finds**: the longest prefix, of at most `n` characters, that is in the table. -/
theorem findRoute_eq_some_iff {router : HttpRouter H} {n : Nat} :
    router.findRoute request n = some info ↔
      ∃ i, 0 < i ∧ i ≤ n ∧ router[request.take i]? = some info ∧
        ∀ j, i < j → j ≤ n → router[request.take j]? = none := by
  induction n with
  | zero =>
      refine ⟨fun h => absurd h (by simp [findRoute]), ?_⟩
      rintro ⟨i, hpos, hle, -⟩
      omega
  | succ n ih =>
      unfold findRoute
      rw [substr_zero]
      split
      · rename_i found hfound
        constructor
        · rintro h
          obtain rfl := Option.some.inj h
          exact ⟨n + 1, Nat.succ_pos n, Nat.le_refl _, hfound, fun j hj hj' => by omega⟩
        · rintro ⟨i, -, hle, hi, hlonger⟩
          rcases Nat.lt_or_ge i (n + 1) with hlt | hge
          · exact absurd (hfound.symm.trans (hlonger (n + 1) hlt (Nat.le_refl _))) (by simp)
          · obtain rfl : i = n + 1 := by omega
            exact hfound.symm.trans hi
      · rename_i hnone
        rw [ih]
        constructor
        · rintro ⟨i, hpos, hle, hi, hlonger⟩
          refine ⟨i, hpos, Nat.le_succ_of_le hle, hi, fun j hj hj' => ?_⟩
          rcases Nat.lt_or_ge n j with hlt | hge
          · obtain rfl : j = n + 1 := by omega
            exact hnone
          · exact hlonger j hj hge
        · rintro ⟨i, hpos, hle, hi, hlonger⟩
          have hne : i ≠ n + 1 := by
            rintro rfl
            exact absurd (hi.symm.trans hnone) (by simp)
          exact ⟨i, hpos, by omega, hi, fun j hj hj' => hlonger j hj (Nat.le_succ_of_le hj')⟩

theorem findRoute_eq_none_iff {router : HttpRouter H} {n : Nat} :
    router.findRoute request n = none ↔ ∀ i, 0 < i → i ≤ n → router[request.take i]? = none := by
  induction n with
  | zero => exact ⟨fun _ i hpos hle => by omega, fun _ => rfl⟩
  | succ n ih =>
      unfold findRoute
      rw [substr_zero]
      split
      · rename_i found hfound
        refine ⟨fun h => absurd h (by simp), fun h => ?_⟩
        exact absurd (hfound.symm.trans (h (n + 1) (Nat.succ_pos n) (Nat.le_refl _))) (by simp)
      · rename_i hnone
        rw [ih]
        refine ⟨fun h i hpos hle => ?_, fun h i hpos hle => h i hpos (Nat.le_succ_of_le hle)⟩
        rcases Nat.lt_or_ge n i with hlt | hge
        · obtain rfl : i = n + 1 := by omega
          exact hnone
        · exact h i hpos hge

/-- The route of a request: that of its longest registered prefix. -/
theorem findRoute_addRoutes (h : (addRoutes routes).findRoute request request.length = some info) :
    ∃ path, Matches routes request path ∧ LastRoute routes path info ∧
      ∀ q, Matches routes request q → q.length ≤ path.length := by
  obtain ⟨i, hpos, hle, hi, hlonger⟩ := findRoute_eq_some_iff.mp h
  have hlength : (request.take i).length = i := by
    rw [List.length_take]
    omega
  refine ⟨request.take i, ⟨?_, ?_, List.take_prefix i request⟩, getElem?_addRoutes_iff.mp hi, ?_⟩
  · by_contra hnot
    exact absurd (hi.symm.trans (getElem?_addRoutes_eq_none_iff.mpr hnot)) (by simp)
  · exact fun hnil => by simp [hnil] at hlength; omega
  · rintro q ⟨hmem, -, hq⟩
    rw [hlength]
    by_contra hlt
    have hnone := hlonger q.length (by omega) hq.length_le
    rw [← List.prefix_iff_eq_take.mp hq] at hnone
    exact getElem?_addRoutes_eq_none_iff.mp hnone hmem

/-- A request without a route: no registered path is a non-empty prefix. -/
theorem findRoute_addRoutes_eq_none_iff :
    (addRoutes routes).findRoute request request.length = none ↔ ∀ path, ¬ Matches routes request path := by
  rw [findRoute_eq_none_iff]
  constructor
  · rintro h path ⟨hmem, hne, hpath⟩
    have hnone := h path.length (List.length_pos_of_ne_nil hne) hpath.length_le
    rw [← List.prefix_iff_eq_take.mp hpath] at hnone
    exact getElem?_addRoutes_eq_none_iff.mp hnone hmem
  · intro h i hpos hle
    rw [getElem?_addRoutes_eq_none_iff]
    refine fun hmem => h _ ⟨hmem, fun hnil => ?_, List.take_prefix i request⟩
    have hlength := congrArg List.length hnil
    rw [List.length_take, List.length_nil] at hlength
    omega

/-! ## What `handle` does -/

/-- What `handle` does to the outside. -/
inductive Effect (H : Type) where
  | called (handler : H)
  | added (header : Bytes)
deriving DecidableEq, Repr

/-- Calls of handlers, with a record. -/
def recordCall (call : H → HttpRequest → σ → σ × Bool) (handler : H) (req : HttpRequest)
    (s : σ × List (Effect H)) : (σ × List (Effect H)) × Bool :=
  (((call handler req s.1).1, s.2 ++ [.called handler]), (call handler req s.1).2)

/-- Headers that are added, with a record. -/
def recordHeader (addHeader : Bytes → σ → σ) (header : Bytes) (s : σ × List (Effect H)) : σ × List (Effect H) :=
  (addHeader header s.1, s.2 ++ [.added header])

theorem foldl_recordHeader (addHeader : Bytes → σ → σ) (headers : List Bytes) (s : σ × List (Effect H)) :
    headers.foldl (fun s header => recordHeader addHeader header s) s =
      (headers.foldl (fun s header => addHeader header s) s.1, s.2 ++ headers.map .added) := by
  induction headers generalizing s with
  | nil => simp
  | cons header headers ih =>
      rw [List.foldl_cons, ih, List.foldl_cons, List.map_cons]
      simp [recordHeader]

/-- The outcome of the route `info`: its handler is called, and if it returns, the headers of the route are
    added. -/
def outcome (call : H → HttpRequest → σ → σ × Bool) (addHeader : Bytes → σ → σ) (info : RouteInfo H)
    (req : HttpRequest) (s : σ) : (σ × List (Effect H)) × Bool :=
  if (call info.handler req s).2 then (((call info.handler req s).1, [.called info.handler]), true)
  else ((info.headers.foldl (fun s header => addHeader header s) (call info.handler req s).1,
    .called info.handler :: info.headers.map .added), false)

theorem handle_recorded (call : H → HttpRequest → σ → σ × Bool) (addHeader : Bytes → σ → σ)
    {router : HttpRouter H} {req : HttpRequest} (s : σ)
    (h : router.findRoute req.path req.path.length = some info) :
    router.handle (recordCall call) (recordHeader addHeader) req (s, []) = outcome call addHeader info req s := by
  rw [handle, h]
  dsimp only [recordCall, outcome]
  split
  · rfl
  · rw [foldl_recordHeader]
    rfl

/-- **The router picks the longest matching route**, whatever handlers and connections do: one handler is
    called, once, the one most recently registered for the longest registered path that is a non-empty prefix of
    the request path, and its headers are added in their order; and none is called exactly if there is no such
    path. -/
theorem handle_longest_route (routes : List (Bytes × RouteInfo H)) (call : H → HttpRequest → σ → σ × Bool)
    (addHeader : Bytes → σ → σ) (req : HttpRequest) (s : σ) :
    ((∀ handler, .called handler ∉ ((addRoutes routes).handle (recordCall call) (recordHeader addHeader) req
        (s, [])).1.2) ↔ ∀ path, ¬ Matches routes req.path path) ∧
      ((∀ path, ¬ Matches routes req.path path) →
        (addRoutes routes).handle (recordCall call) (recordHeader addHeader) req (s, []) = ((s, []), false)) ∧
      ((∃ path, Matches routes req.path path) →
        ∃ path info, Matches routes req.path path ∧ (∀ q, Matches routes req.path q → q.length ≤ path.length) ∧
          LastRoute routes path info ∧
          (addRoutes routes).handle (recordCall call) (recordHeader addHeader) req (s, []) =
            outcome call addHeader info req s) := by
  cases hroute : (addRoutes routes).findRoute req.path req.path.length with
  | none =>
      have hno := findRoute_addRoutes_eq_none_iff.mp hroute
      have hhandle : (addRoutes routes).handle (recordCall call) (recordHeader addHeader) req (s, []) =
          ((s, []), false) := by
        rw [handle, hroute]
      refine ⟨?_, fun _ => hhandle, fun ⟨path, hpath⟩ => absurd hpath (hno path)⟩
      rw [hhandle]
      exact iff_of_true (fun _ => List.not_mem_nil) hno
  | some info =>
      obtain ⟨path, hpath, hlast, hlongest⟩ := findRoute_addRoutes hroute
      have hhandle := handle_recorded call addHeader s hroute
      refine ⟨?_, fun hno => absurd hpath (hno path), fun _ => ⟨path, info, hpath, hlongest, hlast, hhandle⟩⟩
      rw [hhandle]
      refine iff_of_false (fun hnot => hnot info.handler ?_) fun hno => hno path hpath
      unfold outcome
      split <;> simp

/-- Some routes, with numbers for handlers: one path inside the other, and one registered twice. -/
def someRoutes : List (Bytes × RouteInfo Nat) :=
  [(ascii "/a", ⟨0, []⟩), (ascii "/a/b", ⟨1, [ascii "X"]⟩), (ascii "/a", ⟨2, []⟩), ([], ⟨3, []⟩)]

/-- `/a/bc` matches two of the paths. -/
theorem handle_longest_route_nested :
    ∃ path info, Matches someRoutes (ascii "/a/bc") path ∧
      (∀ q, Matches someRoutes (ascii "/a/bc") q → q.length ≤ path.length) ∧ LastRoute someRoutes path info ∧
      (addRoutes someRoutes).handle (recordCall fun _ _ s => (s, false)) (recordHeader fun _ s => s)
          { HttpRequest.new with path := ascii "/a/bc" } ((), []) =
        outcome (fun _ _ s => (s, false)) (fun _ s => s) info { HttpRequest.new with path := ascii "/a/bc" } () :=
  (handle_longest_route someRoutes (fun _ _ s => (s, false)) (fun _ s => s)
    { HttpRequest.new with path := ascii "/a/bc" } ()).2.2 ⟨ascii "/a", by decide +kernel⟩

end HttpRouter

end HttpServer
end Hiaux
