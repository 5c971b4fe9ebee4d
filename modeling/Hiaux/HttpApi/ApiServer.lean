import Hiaux.HttpApi.HttpApi
import Hiaux.HttpServer.HttpRouter

/-!
# `HttpApi.ApiServer` — a server with a router and an API behind it

Here the handlers of an `HttpServer` are the library's own: `HttpRouter::handle` for HTTP requests, and
`HttpApi::handleBinary` for the requests of the custom protocols. The operations that dispatch requests are
those of `HttpServer.Server`, with these two called where `Server` is given the outcome of a handler.

What is left to the environment is what the handlers of the routes and the asynchronous callbacks of the
API do: they answer before they return, or later, or never. `invoked` keeps the requests for which one of
them was called. An answer from outside the loop comes from one of these.
-/

namespace Hiaux
namespace HttpApi

open Lib Network HttpServer

/-- What an `HttpServer` is put together from: the route table, the API behind each custom protocol, and
    `dynamic_cast<hiapi::server::Request*>`, which fails on requests of other types. -/
structure Application (PS CP CR H : Type) where
  lib : Library PS CP CR
  router : HttpRouter H
  api : Bytes → Api
  cast : CR → Option BinServer.Request

/-- The server, and the requests (by connection and number) given to a handler. -/
structure ApiServer (PS CP CR : Type) where
  server : Server PS CP CR
  invoked : List (Nat × Nat)

namespace ApiServer

variable {PS CP CR H : Type}

/-- The constructor, listening on `listenSock`. -/
def init (app : Application PS CP CR H) (listenSock : Nat) : ApiServer PS CP CR :=
  ⟨.init app.lib listenSock, []⟩

/-- An operation of the server that calls no handler. -/
def onServer (f : Server PS CP CR → Server PS CP CR) (w : ApiServer PS CP CR) : ApiServer PS CP CR :=
  { w with server := f w.server }

/-! ## Handlers -/

/-- A handler is called for request `k` of the connection at `i`. -/
def runHandler (i k : Nat) (o : HandlerOutcome) (w : ApiServer PS CP CR) : ApiServer PS CP CR × Bool :=
  let (s, threw) := w.server.runHandler i k o
  (⟨s, w.invoked ++ [(i, k)]⟩, threw)

/-- `HttpConnection::addHeader`, unless the loop waits for its mutex in the handler before. -/
def addHeader (i : Nat) (header : Bytes) (w : ApiServer PS CP CR) : ApiServer PS CP CR :=
  if w.server.phase = .deadlocked then w
  else w.onServer (fun s => s.setConn i ((s.conn i).addHeader header))

/-- `m_request_hdl`, which is `HttpRouter::handle`. A request without a route is not answered. -/
def requestHdl (app : Application PS CP CR H) (i k : Nat) (o : HandlerOutcome) (request : HttpRequest)
    (w : ApiServer PS CP CR) : ApiServer PS CP CR × Bool :=
  app.router.handle (fun _ _ w => w.runHandler i k o) (addHeader i) request w

/-- `HttpApi::handleBinary` for a request of `protocol`. What an asynchronous callback does is its own
    affair; everything else is answered at once, except for a request of another type. -/
def handleBinary (app : Application PS CP CR H) (i k : Nat) (o : HandlerOutcome) (protocol : Bytes)
    (request : CR) (w : ApiServer PS CP CR) : ApiServer PS CP CR × Bool :=
  let handled := (app.api protocol).handleBinary (app.cast request)
  match handled.invoked with
  | [.async _] => w.runHandler i k o
  | _ => (w.onServer (·.replies i k handled.replies), false)

/-! ## Dispatching -/

/-- An upgrade that is granted: the parser, the handshake in answer to request `k`, and the flag. -/
def upgrade (i k : Nat) (protocol : Bytes) (cp : CP) (handshake : Bytes) (s : Server PS CP CR) :
    Server PS CP CR :=
  let s := s.setConn i { s.conn i with
    customParser := some cp, customProtocol := true, customProtocolId := protocol }
  let s := s.reply i k (.custom handshake)
  s.setConn i { s.conn i with waitingLastHandling := false }

/-- `HttpServer::handleWaitingRequests`, with `checkUpgrade` and `runCustomHandler`; whether a handler has
    thrown. -/
def handleWaitingRequests (app : Application PS CP CR H) (i : Nat) (o : HandlerOutcome)
    (w : ApiServer PS CP CR) : ApiServer PS CP CR × Bool :=
  let c := w.server.conn i
  let k := (w.server.objects i).dispatched
  if c.waitingLastHandling then (w, false)
  else
    match c.customProtocol, c.httpRequests, c.customRequests with
    -- http
    | false, request :: rest, _ =>
        let w := w.onServer (·.dispatch i { c with httpRequests := rest })
        match Server.getCustomParser app.lib request with
        | some (protocol, cp, handshake) => (w.onServer (upgrade i k protocol cp handshake), false)
        | none => w.requestHdl app i k o request
    -- custom protocol
    | _, _, request :: rest =>
        if (app.lib.customProtocols c.customProtocolId).isSome then
          (w.onServer (·.dispatch i { c with customRequests := rest })).handleBinary app i k o
            c.customProtocolId request
        -- `runCustomHandler` returns without an answer
        else (w.onServer (·.setConn i { c with customRequests := rest, waitingLastHandling := true }), false)
    | _, _, [] => (w, false)

/-- `HttpServer::performRecv`. -/
def performRecv (app : Application PS CP CR H) (sock : Nat) (rs : List RecvResult) (now : Nat)
    (o : HandlerOutcome) (w : ApiServer PS CP CR) : ApiServer PS CP CR :=
  match w.server.readingConnections[sock]? with
  | none => w.onServer (·.delSocket sock)
  | some i =>
      let (c, threw) := (w.server.conn i).performRecv app.lib rs now
      let w := w.onServer (·.setConn i c)
      if threw then w.onServer (·.killConnection sock)
      else if c.notDead now then
        let (w, threw) := w.handleWaitingRequests app i o
        if threw then w.onServer (·.killConnection sock) else w
      else w.onServer (·.remove sock)

/-- `HttpServer::handleResponse`; whether a handler has thrown. -/
def handleResponse (app : Application PS CP CR H) (i : Nat) (r : SendResult) (now : Nat)
    (o : HandlerOutcome) (w : ApiServer PS CP CR) : ApiServer PS CP CR × Bool :=
  let (c, sent) := { w.server.conn i with waitingLastHandling := false }.performSend r now
  let w := w.onServer (·.setConn i c)
  if !sent && !c.notDead now then
    match w.server.readingConnections[c.sock]? with
    -- `erase(find(..))` with nothing found
    | none => (w.onServer (fun s => { s.delSocket c.sock with undefined := true }), false)
    | some _ => (w.onServer (·.remove c.sock), false)
  else (if sent then w else w.onServer (·.enableEvents c.sock)).handleWaitingRequests app i o

/-- Adding the reply at the front of a queue and handling it; `pop` is what follows. -/
def drainOne (app : Application PS CP CR H) (i : Nat) (q : Reply)
    (pop : Server PS CP CR → Server PS CP CR) (r : SendResult) (now : Nat) (o : HandlerOutcome)
    (w : ApiServer PS CP CR) : ApiServer PS CP CR :=
  let (w, threw) := (w.onServer (·.addReply app.lib now i q)).handleResponse app i r now o
  if w.server.undefined || w.server.phase = .deadlocked then w
  else if threw then w.onServer (fun s => { s with phase := .idle })
  else w.onServer pop

/-! ## Steps -/

/-- One step; `none` when the input does not fit. The steps of `Server` that dispatch no request are as they
    are there, and only a handler that was called may answer later. -/
def step (app : Application PS CP CR H) (w : ApiServer PS CP CR) (input : Server.Input) :
    Option (ApiServer PS CP CR) :=
  match input, w.server.undefined, w.server.phase with
  | .read rs now o, false, .events (.read sock :: rest) =>
      some ((w.onServer (fun s => { s with phase := .events rest })).performRecv app sock rs now o)
  | .read _ _ _, _, _ => none
  | .drain r now o, false, .draining =>
      match w.server.respQueue, w.server.customRespQueue with
      | q :: _, _ =>
          some (w.drainOne app q.conn (.http q.resp) (fun s => { s with respQueue := s.respQueue.tail })
            r now o)
      | [], q :: _ =>
          some (w.drainOne app q.conn (.custom q.resp)
            (fun s => { s with customRespQueue := s.customRespQueue.tail }) r now o)
      | [], [] => none
  | .drain _ _ _, _, _ => none
  | .answer i k r, _, _ =>
      if (i, k) ∈ w.invoked then (w.server.step app.lib (.answer i k r)).map (fun s => { w with server := s })
      else none
  | input, _, _ => (w.server.step app.lib input).map (fun s => { w with server := s })

/-- A run: each input fits. -/
def run (app : Application PS CP CR H) : ApiServer PS CP CR → List Server.Input →
    Option (ApiServer PS CP CR) :=
  Lib.run (step app)

/-! ## The server underneath

While no route has headers, each operation is the one of `Server`, called with a handler that does what the
router and the API do. -/

/-- No route adds headers. -/
def PlainRoutes (app : Application PS CP CR H) : Prop :=
  ∀ (path : Bytes) (info : RouteInfo H), app.router[path]? = some info → info.headers = []

variable {app : Application PS CP CR H} {w w' : ApiServer PS CP CR}

@[simp] theorem server_onServer (f : Server PS CP CR → Server PS CP CR) (w : ApiServer PS CP CR) :
    (w.onServer f).server = f w.server :=
  rfl

theorem headers_of_findRoute (hplain : PlainRoutes app) {path : Bytes} {n : Nat} {info : RouteInfo H}
    (h : app.router.findRoute path n = some info) : info.headers = [] := by
  induction n with
  | zero => exact absurd h (by simp [HttpRouter.findRoute])
  | succ n ih =>
      unfold HttpRouter.findRoute at h
      split at h
      · rename_i info' hinfo
        exact Option.some.inj h ▸ hplain _ _ hinfo
      · exact ih h

theorem server_requestHdl (hplain : PlainRoutes app) (i k : Nat) (o : HandlerOutcome) (request : HttpRequest)
    (w : ApiServer PS CP CR) :
    ∃ o', (w.requestHdl app i k o request).map ApiServer.server id = w.server.runHandler i k o' := by
  unfold requestHdl HttpRouter.handle
  split
  · exact ⟨⟨[], false⟩, rfl⟩
  · rename_i info hinfo
    rw [headers_of_findRoute hplain hinfo]
    refine ⟨o, ?_⟩
    dsimp only [runHandler]
    generalize w.server.runHandler i k o = result
    obtain ⟨s, threw⟩ := result
    cases threw <;> rfl

theorem server_handleBinary (i k : Nat) (o : HandlerOutcome) (protocol : Bytes) (request : CR)
    (w : ApiServer PS CP CR) :
    ∃ o', (w.handleBinary app i k o protocol request).map ApiServer.server id =
      w.server.runHandler i k o' := by
  unfold handleBinary
  dsimp only
  split
  · exact ⟨o, rfl⟩
  · exact ⟨⟨_, false⟩, rfl⟩

theorem exists_ite {α β : Type} (c : Bool) {f : α → β} {a b : α} {p q : HandlerOutcome → β}
    (ha : ∃ o, f a = p o) (hb : ∃ o, f b = q o) :
    ∃ o, f (if c then a else b) = if c then p o else q o := by
  cases c
  · exact hb
  · exact ha

theorem server_handleWaitingRequests (hplain : PlainRoutes app) (i : Nat) (o : HandlerOutcome)
    (w : ApiServer PS CP CR) :
    ∃ o', (w.handleWaitingRequests app i o).map ApiServer.server id =
      w.server.handleWaitingRequests app.lib i o' := by
  unfold handleWaitingRequests Server.handleWaitingRequests
  dsimp only
  by_cases hwait : (w.server.conn i).waitingLastHandling = true
  · rw [if_pos hwait]
    exact ⟨o, by rw [if_pos hwait]; rfl⟩
  · simp only [if_neg hwait]
    generalize hc : (w.server.conn i).customProtocol = customProtocol
    generalize hr : (w.server.conn i).httpRequests = httpRequests
    generalize hq : (w.server.conn i).customRequests = customRequests
    by_cases hhttp : customProtocol = false ∧ httpRequests ≠ []
    · obtain ⟨rfl, hne⟩ := hhttp
      obtain ⟨request, rest, rfl⟩ := List.exists_cons_of_ne_nil hne
      dsimp only
      generalize Server.getCustomParser app.lib request = parser
      cases parser with
      | none => exact server_requestHdl hplain _ _ o _ _
      | some _ => exact ⟨o, rfl⟩
    · rcases customRequests with _ | ⟨request, rest⟩
      · rcases customProtocol with _ | _ <;> rcases httpRequests with _ | ⟨request, rest⟩
        · exact ⟨o, rfl⟩
        · exact absurd ⟨rfl, by simp⟩ hhttp
        · exact ⟨o, rfl⟩
        · exact ⟨o, rfl⟩
      -- `runCustomHandler`
      · rcases customProtocol with _ | _ <;> rcases httpRequests with _ | ⟨request, rest⟩
        · exact exists_ite _ (server_handleBinary _ _ o _ _ _) ⟨o, rfl⟩
        · exact absurd ⟨rfl, by simp⟩ hhttp
        · exact exists_ite _ (server_handleBinary _ _ o _ _ _) ⟨o, rfl⟩
        · exact exists_ite _ (server_handleBinary _ _ o _ _ _) ⟨o, rfl⟩

theorem server_performRecv (hplain : PlainRoutes app) (sock : Nat) (rs : List RecvResult) (now : Nat)
    (o : HandlerOutcome) (w : ApiServer PS CP CR) :
    ∃ o', (w.performRecv app sock rs now o).server = w.server.performRecv app.lib sock rs now o' := by
  unfold performRecv Server.performRecv
  cases w.server.readingConnections[sock]? with
  | none => exact ⟨o, rfl⟩
  | some i =>
      dsimp only
      generalize (w.server.conn i).performRecv app.lib rs now = received
      obtain ⟨c, threw⟩ := received
      obtain ⟨o', ho'⟩ := server_handleWaitingRequests hplain i o (w.onServer (·.setConn i c))
      rw [server_onServer] at ho'
      refine ⟨o', ?_⟩
      dsimp only
      rw [← ho']
      generalize (w.onServer (·.setConn i c)).handleWaitingRequests app i o = result
      obtain ⟨v, threw'⟩ := result
      cases threw <;> cases c.notDead now <;> cases threw' <;> rfl

theorem server_handleResponse (hplain : PlainRoutes app) (i : Nat) (r : SendResult) (now : Nat)
    (o : HandlerOutcome) (w : ApiServer PS CP CR) :
    ∃ o', (w.handleResponse app i r now o).map ApiServer.server id =
      w.server.handleResponse app.lib i r now o' := by
  unfold handleResponse Server.handleResponse
  generalize HttpConnection.performSend r now { w.server.conn i with waitingLastHandling := false } = result
  obtain ⟨c, sent⟩ := result
  dsimp only
  refine exists_ite _ ⟨o, ?_⟩ ?_
  · rw [server_onServer]
    cases (w.server.setConn i c).readingConnections[c.sock]? <;> rfl
  · obtain ⟨o', ho'⟩ := server_handleWaitingRequests hplain i o
      (if sent then w.onServer (·.setConn i c) else
        (w.onServer (·.setConn i c)).onServer (·.enableEvents c.sock))
    refine ⟨o', ho'.trans ?_⟩
    cases sent <;> rfl

theorem server_drainOne (hplain : PlainRoutes app) (i : Nat) (q : Reply)
    (pop : Server PS CP CR → Server PS CP CR) (r : SendResult) (now : Nat) (o : HandlerOutcome)
    (w : ApiServer PS CP CR) :
    ∃ o', (w.drainOne app i q pop r now o).server = w.server.drainOne app.lib i q pop r now o' := by
  obtain ⟨o', ho'⟩ := server_handleResponse hplain i r now o (w.onServer (·.addReply app.lib now i q))
  rw [server_onServer] at ho'
  refine ⟨o', ?_⟩
  unfold drainOne Server.drainOne
  rw [← ho']
  generalize (w.onServer (·.addReply app.lib now i q)).handleResponse app i r now o = result
  obtain ⟨v, threw⟩ := result
  dsimp only [Prod.map]
  split
  · rfl
  · cases threw <;> rfl

/-- **A step is one of the server.** -/
theorem server_step (hplain : PlainRoutes app) {input : Server.Input} (h : w.step app input = some w') :
    ∃ input', w.server.step app.lib input' = some w'.server := by
  unfold step at h
  split at h
  · rename_i rs now o sock rest hundef hphase
    obtain ⟨o', ho'⟩ := server_performRecv hplain sock rs now o
      (w.onServer (fun s => { s with phase := .events rest }))
    refine ⟨.read rs now o', ?_⟩
    rw [← Option.some.inj h, ho']
    unfold Server.step
    rw [if_neg (by simp [hundef]), hphase]
    rfl
  · exact absurd h (by simp)
  · rename_i r now o hundef hphase
    split at h
    · rename_i q rest hq
      obtain ⟨o', ho'⟩ := server_drainOne hplain q.conn (.http q.resp)
        (fun s => { s with respQueue := s.respQueue.tail }) r now o w
      refine ⟨.drain r now o', ?_⟩
      rw [← Option.some.inj h, ho']
      unfold Server.step
      rw [hundef, hphase, hq]
      rfl
    · rename_i q rest hr hq
      obtain ⟨o', ho'⟩ := server_drainOne hplain q.conn (.custom q.resp)
        (fun s => { s with customRespQueue := s.customRespQueue.tail }) r now o w
      refine ⟨.drain r now o', ?_⟩
      rw [← Option.some.inj h, ho']
      unfold Server.step
      rw [hundef, hphase, hr, hq]
      rfl
    · exact absurd h (by simp)
  · exact absurd h (by simp)
  · rename_i i k r _ _
    split at h
    · obtain ⟨t, ht, rfl⟩ := Option.map_eq_some_iff.mp h
      exact ⟨_, ht⟩
    · exact absurd h (by simp)
  · obtain ⟨t, ht, rfl⟩ := Option.map_eq_some_iff.mp h
    exact ⟨_, ht⟩

/-- **A run is one of the server.** -/
theorem server_run (hplain : PlainRoutes app) {inputs : List Server.Input} (h : w.run app inputs = some w') :
    ∃ inputs', w.server.run app.lib inputs' = some w'.server := by
  induction inputs generalizing w with
  | nil => exact ⟨[], congrArg (Option.map ApiServer.server) h⟩
  | cons input inputs ih =>
      obtain ⟨v, hstep, hrun⟩ := Option.bind_eq_some_iff.mp h
      obtain ⟨input', hinput'⟩ := server_step hplain hstep
      obtain ⟨inputs', hinputs'⟩ := ih hrun
      exact ⟨input' :: inputs', Option.bind_eq_some_iff.mpr ⟨v.server, hinput', hinputs'⟩⟩

end ApiServer

end HttpApi
end Hiaux
