import Hiaux.HttpServer.Correctness.Messages
import Hiaux.HttpServer.HttpRouter
import Hiaux.Lib.Run

/-!
# `HttpServer.Correctness.Headers` — whose headers a response has

The headers that handlers and routes add are kept on the connection and are never taken off it. A response
is rendered with all of them. So it has the headers of its own request alone exactly if there were none when
that request was given to the router (`headersOwn_iff`).
-/

namespace Hiaux
namespace HttpServer

open Lib

/-- What a handler does with its connection. -/
inductive HandlerAction where
  | addHeader (header : Bytes)
  | setCookie (name value : Bytes)
  | sendResponse (resp : HttpResponse)

/-- A response as it was rendered, and as it is with the headers of its own request only. -/
structure Rendered where
  actual : Bytes
  own : Bytes

/-- A keep-alive connection whose requests are handled by a router: `queued` is its entry of
    `m_resp_queue`. Beside it, the headers that were there when the last request was given to the router,
    those added since, and what has been rendered. -/
structure Session (PS CP CR : Type) where
  conn : HttpConnection PS CP CR
  queued : Option HttpResponse
  before : List Bytes
  since : List Bytes
  rendered : List Rendered

namespace Session

variable {PS CP CR H : Type}

/-- A new connection. -/
def new (lib : Library PS CP CR) (sock now : Nat) : Session PS CP CR := ⟨.new lib sock now, none, [], [], []⟩

/-- A header that is added to the connection. -/
def addHeader (header : Bytes) (s : Session PS CP CR) : Session PS CP CR :=
  { s with conn := s.conn.addHeader header, since := s.since ++ [header] }

/-- An action of the handler of the current request. A request is answered once. -/
def act (s : Session PS CP CR) : HandlerAction → Option (Session PS CP CR)
  | .addHeader header => some (s.addHeader header)
  | .setCookie name value =>
      some { s with
        conn := s.conn.setCookie name value
        since := s.since ++ [HttpConnection.cookieHeader name value] }
  | .sendResponse resp =>
      if s.conn.waitingLastHandling ∧ s.queued = none then some { s with queued := some resp } else none

/-- What happens to the connection: a request arrives; the first one waiting is given to the router, with
    what its handler does before it returns; the handler, which has kept the connection, does something
    more; the event loop adds the queued response. -/
inductive Input where
  | receive (req : HttpRequest)
  | dispatch (actions : List HandlerAction)
  | later (action : HandlerAction)
  | render (now : Nat)

/-- One step; `none` when the input does not fit. -/
def step (info : ResponseInfo) (router : HttpRouter H) (s : Session PS CP CR) :
    Input → Option (Session PS CP CR)
  | .receive req => some { s with conn := { s.conn with httpRequests := s.conn.httpRequests ++ [req] } }
  | .dispatch actions =>
      match s.conn.waitingLastHandling, s.conn.httpRequests with
      | false, req :: rest =>
          (router.handle (fun _ _ s => (s.bind (fun s => actions.foldlM act s), false))
            (fun header s => s.map (addHeader header)) req
            (some { s with
              conn := { s.conn with httpRequests := rest, waitingLastHandling := true }
              before := s.conn.resHeaders
              since := [] })).1
      | _, _ => none
  | .later action => s.act action
  | .render now =>
      match s.queued with
      | none => none
      | some resp =>
          some { s with
            conn := { s.conn.addResponse info now resp with waitingLastHandling := false }
            queued := none
            rendered := s.rendered ++ [⟨s.conn.renderResponse info now resp,
              { s.conn with resHeaders := s.since }.renderResponse info now resp⟩] }

/-- Every response has been rendered with the headers of its own request only. -/
def HeadersOwn (s : Session PS CP CR) : Prop := ∀ r ∈ s.rendered, r.actual = r.own

/-- A response is rendered only if the connection had no headers when its request was given to the
    router. -/
def Uncluttered (s : Session PS CP CR) : Input → Prop
  | .render _ => s.queued.isSome = true → s.before = []
  | _ => True

instance (s : Session PS CP CR) (input : Input) : Decidable (s.Uncluttered input) := by
  cases input
  case render now => exact inferInstanceAs (Decidable (_ → s.before = []))
  all_goals exact instDecidableTrue

/-! ## The headers on the connection -/

/-- The headers on the connection are those from before the current request and those since. -/
def Split (s : Session PS CP CR) : Prop := s.conn.resHeaders = s.before ++ s.since

/-- What a handler may do to the session: the headers stay split, and nothing is rendered. -/
structure Acted (s t : Session PS CP CR) : Prop where
  split : s.Split → t.Split
  rendered : t.rendered = s.rendered

theorem Acted.refl (s : Session PS CP CR) : Acted s s := ⟨id, rfl⟩

theorem Acted.trans {s t u : Session PS CP CR} (h : Acted s t) (h' : Acted t u) : Acted s u :=
  ⟨fun hs => h'.split (h.split hs), h'.rendered.trans h.rendered⟩

theorem acted_addHeader (header : Bytes) (s : Session PS CP CR) : Acted s (s.addHeader header) := by
  refine ⟨fun h => ?_, rfl⟩
  show s.conn.resHeaders ++ [header] = s.before ++ (s.since ++ [header])
  rw [h, List.append_assoc]

theorem acted_act {s t : Session PS CP CR} {a : HandlerAction} (h : s.act a = some t) : Acted s t := by
  cases a with
  | addHeader header => exact Option.some.inj h ▸ acted_addHeader header s
  | setCookie name value =>
      obtain rfl := Option.some.inj h
      refine ⟨fun h => ?_, rfl⟩
      show s.conn.resHeaders ++ [_] = s.before ++ (s.since ++ [_])
      rw [h, List.append_assoc]
  | sendResponse resp =>
      rw [act] at h
      split at h
      · obtain rfl := Option.some.inj h
        exact ⟨id, rfl⟩
      · exact absurd h (by simp)

theorem acted_foldlM {actions : List HandlerAction} {s t : Session PS CP CR}
    (h : actions.foldlM act s = some t) : Acted s t := by
  induction actions generalizing s with
  | nil => exact Option.some.inj h ▸ Acted.refl s
  | cons a actions ih =>
      obtain ⟨u, hu, hrest⟩ := Option.bind_eq_some_iff.mp h
      exact (acted_act hu).trans (ih hrest)

theorem acted_foldl_addHeader {headers : List Bytes} {s t : Session PS CP CR}
    (h : headers.foldl (fun s header => s.map (addHeader header)) (some s) = some t) : Acted s t := by
  induction headers generalizing s with
  | nil => exact Option.some.inj h ▸ Acted.refl s
  | cons header headers ih => exact (acted_addHeader header s).trans (ih h)

/-- A request that is given to the router: its handler acts, and the headers of the route are added. -/
theorem acted_handle {router : HttpRouter H} {req : HttpRequest} {actions : List HandlerAction}
    {s t : Session PS CP CR}
    (h : (router.handle (fun _ _ s => (s.bind (fun s => actions.foldlM act s), false))
      (fun header s => s.map (addHeader header)) req (some s)).1 = some t) : Acted s t := by
  unfold HttpRouter.handle at h
  split at h
  · exact Option.some.inj h ▸ Acted.refl s
  · rename_i info hinfo
    dsimp only at h
    rw [if_neg Bool.false_ne_true] at h
    cases hacts : actions.foldlM act s with
    | none =>
        have hnone : ∀ headers : List Bytes,
            headers.foldl (fun (s : Option (Session PS CP CR)) header => s.map (addHeader header)) none =
              none := by
          intro headers
          induction headers with
          | nil => rfl
          | cons header headers ih => exact ih
        rw [Option.bind_some, hacts] at h
        exact absurd ((hnone info.headers).symm.trans h) (by simp)
    | some u =>
        rw [Option.bind_some, hacts] at h
        exact (acted_foldlM hacts).trans (acted_foldl_addHeader h)

/-! ## Runs -/

section Runs

variable {info : ResponseInfo} {router : HttpRouter H} {s t : Session PS CP CR} {input : Input}

/-- What a step can do: the headers stay split and nothing is rendered, or the queued response is. -/
theorem step_cases (h : step info router s input = some t) :
    ((s.Split → t.Split) ∧ t.rendered = s.rendered ∧ ∀ now, input ≠ .render now) ∨
      ∃ now resp, input = .render now ∧ s.queued = some resp ∧
        t = { s with
          conn := { s.conn.addResponse info now resp with waitingLastHandling := false }
          queued := none
          rendered := s.rendered ++ [⟨s.conn.renderResponse info now resp,
            { s.conn with resHeaders := s.since }.renderResponse info now resp⟩] } := by
  cases input with
  | receive req =>
      obtain rfl := Option.some.inj h
      exact Or.inl ⟨id, rfl, by simp⟩
  | dispatch actions =>
      simp only [step] at h
      split at h
      · rename_i req rest hwaiting hrequests
        have hacted := acted_handle h
        refine Or.inl ⟨fun _ => hacted.split ?_, hacted.rendered, by simp⟩
        exact (List.append_nil _).symm
      · exact absurd h (by simp)
  | later action =>
      have hacted := acted_act h
      exact Or.inl ⟨hacted.split, hacted.rendered, by simp⟩
  | render now =>
      simp only [step] at h
      split at h
      · exact absurd h (by simp)
      · rename_i resp hqueued
        exact Or.inr ⟨now, resp, rfl, hqueued, (Option.some.inj h).symm⟩

variable (info router) in
/-- Rendering takes a queued response. -/
theorem step_render (now : Nat) {resp : HttpResponse} (hqueued : s.queued = some resp) :
    ∃ t, step info router s (.render now) = some t ∧
      t.rendered = s.rendered ++ [⟨s.conn.renderResponse info now resp,
        { s.conn with resHeaders := s.since }.renderResponse info now resp⟩] := by
  simp only [step, hqueued]
  exact ⟨_, rfl, rfl⟩

theorem split_of_step (hs : s.Split) (h : step info router s input = some t) : t.Split := by
  rcases step_cases h with ⟨hsplit, -, -⟩ | ⟨now, resp, -, -, rfl⟩
  · exact hsplit hs
  · exact hs

/-- A response has more lines with more headers. -/
theorem renderResponse_eq_iff {now : Nat} {resp : HttpResponse} {c : HttpConnection PS CP CR}
    {before since : List Bytes} (hsplit : c.resHeaders = before ++ since) :
    c.renderResponse info now resp = { c with resHeaders := since }.renderResponse info now resp ↔
      before = [] := by
  have hline : ∀ headers : List Bytes, (headers.map HttpConnection.line).flatten = [] → headers = [] := by
    intro headers hnil
    cases headers with
    | nil => rfl
    | cons header headers => simp [HttpConnection.line, ascii] at hnil
  constructor
  · intro heq
    have hlen := congrArg List.length heq
    simp only [HttpConnection.renderResponse, hsplit, List.map_append, List.flatten_append,
      List.length_append] at hlen
    exact hline before (List.eq_nil_of_length_eq_zero (by omega))
  · rintro rfl
    have hsame : c = { c with resHeaders := since } := by rw [← List.nil_append since, ← hsplit]
    exact congrArg (HttpConnection.renderResponse info now resp) hsame

theorem headersOwn_step (hsplit : s.Split) (hown : s.HeadersOwn) :
    (∀ t, step info router s input = some t → t.HeadersOwn) ↔ s.Uncluttered input := by
  constructor
  · intro h
    cases input with
    | render now =>
        intro hsome
        obtain ⟨resp, hqueued⟩ := Option.isSome_iff_exists.mp hsome
        obtain ⟨t, ht, hrendered⟩ := step_render info router now hqueued
        have hlast := h t ht _ (hrendered ▸ List.mem_concat_self)
        exact (renderResponse_eq_iff hsplit).mp hlast
    | receive req => exact True.intro
    | dispatch actions => exact True.intro
    | later action => exact True.intro
  · intro hclean t ht
    rcases step_cases ht with ⟨-, hrendered, -⟩ | ⟨now, resp, rfl, hqueued, rfl⟩
    · exact fun r hr => hown r (hrendered ▸ hr)
    · have hnil : s.before = [] := hclean (by rw [hqueued]; rfl)
      intro r hr
      rcases List.mem_append.mp hr with hr | hr
      · exact hown r hr
      · obtain rfl := List.mem_singleton.mp hr
        exact (renderResponse_eq_iff hsplit).mpr hnil

/-- **Whose headers the responses of a connection have**: in every run, each response has the headers of its
    own request only exactly if the connection never had headers when a request that is answered was given
    to the router. -/
theorem headersOwn_iff (lib : Library PS CP CR) (router : HttpRouter H) (sock now : Nat)
    (inputs : List Input) :
    Always (step lib.respInfo router) HeadersOwn (new lib sock now) inputs ↔
      Along (step lib.respInfo router) Uncluttered (new lib sock now) inputs :=
  always_iff_along_of_invariant Split split_of_step headersOwn_step rfl
    (fun _ hr => absurd hr List.not_mem_nil)

end Runs

/-- A route for logging in, and one for a page. -/
def siteRouter : HttpRouter Unit :=
  (HttpRouter.addRoute (ascii "/login") () [ascii "Cache-Control: no-store"] ∅).addRoute (ascii "/page") () []

/-- A cookie is set for the first request; the second only asks for a page. -/
def loginThenPage : List Input :=
  [.receive { HttpRequest.new with path := ascii "/login" },
    .dispatch [.setCookie (ascii "sid") (ascii "7"), .sendResponse ⟨200, ascii "in", []⟩], .render 0,
    .receive { HttpRequest.new with path := ascii "/page" },
    .dispatch [.sendResponse ⟨200, ascii "text", []⟩], .render 0]

theorem loginThenPage_rendered :
    (Lib.run (step ⟨[], []⟩ siteRouter) (new HttpConnection.oneGetLibrary 5 0) loginThenPage).map
      (fun s => s.rendered.map fun r => decide (r.actual = r.own)) = some [true, false] := by decide +kernel

/-- The page comes with the cookie of the login. -/
theorem loginThenPage_not_own : ¬ Always (step HttpConnection.oneGetLibrary.respInfo siteRouter) HeadersOwn
    (new HttpConnection.oneGetLibrary 5 0) loginThenPage := by
  intro h
  obtain ⟨t, ht, hrendered⟩ := Option.map_eq_some_iff.mp loginThenPage_rendered
  have hown := h loginThenPage t (List.prefix_refl _) ht
  have hfalse : false ∈ t.rendered.map (fun r => decide (r.actual = r.own)) := by
    rw [hrendered]
    decide
  obtain ⟨r, hr, hne⟩ := List.mem_map.mp hfalse
  exact of_decide_eq_false hne (hown r hr)

end Session

end HttpServer
end Hiaux
