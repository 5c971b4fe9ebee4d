import Hiaux.Hiapi.ClientServer
import Hiaux.Hiapi.Correctness.Service

/-!
# `Hiapi.Correctness.EndToEnd` — every callback gets the answer to its own request

The client matches responses to requests by their order alone, and neither side numbers them. That the
`k`-th callback is called with the answer to the `k`-th request rests on both sides and on the two streams
between them: the client puts whole items on the wire (`Sent`), the server answers in order what it reads
(`Exchange.Inv`), and the client's parser gives back the frames it receives (`InStep`). No interleaving of the
two sides, of the handlers or of other connections changes that (`callbacks_get_their_answers`), and when
nothing is on the way any more, every request has been answered (`all_answered_when_quiet`).
-/

namespace Hiaux
namespace Hiapi

open Lib Network HttpServer
open BinServer (requests keepaliveByte)

/-! ## The client's stream -/

section

variable {s : BinClient.Session}

open BinClient (Session Op)

/-- The client's stream is the upgrade request and whole items: its requests, and keep-alive bytes. -/
def Sent (s : Session) : Prop :=
  ∃ items : List Framing.Item, (∀ item ∈ items, BinServer.framing.Fits item) ∧
    s.conn.stream = BinClient.upgradeRequest ++ Framing.encodeItems items ∧
    Framing.messages items = s.added.map BinClient.Request.data

theorem sent_new (sock now n : Nat) : Sent (.new sock now n) := by
  refine ⟨[], fun item hitem => absurd hitem List.not_mem_nil, ?_, rfl⟩
  show (BinClient.Connection.new sock now (.accepted n)).1.stream = _
  rw [BinClient.Connection.new, BinClient.Connection.stream_performSend]
  rfl

/-- Receiving changes nothing of what is sent. -/
theorem stream_performRecv (junk : Strings.Junk) (rs : List RecvResult) (c : BinClient.Connection) :
    (c.performRecv junk rs).conn.accepted = c.accepted ∧ (c.performRecv junk rs).conn.sendBuffer = c.sendBuffer := by
  unfold BinClient.Connection.performRecv
  split
  · rw [BinClient.Connection.afterRecv_eq]
    exact ⟨rfl, rfl⟩
  · exact ⟨rfl, rfl⟩
  · exact ⟨rfl, rfl⟩

/-- **Every operation keeps the stream made of whole items.** -/
theorem Sent.perform (h : Sent s) {op : Op}
    (hsize : ∀ req, op = .addRequest req → req.data.length ≤ BinServer.binrequestMaxSize) : Sent (s.perform op) := by
  obtain ⟨items, hfits, hstream, hmessages⟩ := h
  cases op with
  | addRequest req =>
      refine ⟨items ++ [.message req.data], ?_, ?_, ?_⟩
      · intro item hitem
        rcases List.mem_append.mp hitem with hitem | hitem
        · exact hfits item hitem
        · rw [List.mem_singleton.mp hitem]
          exact hsize req rfl
      · show (s.conn.addRequest req).stream = _
        rw [BinClient.Connection.stream_addRequest, hstream]
        simp [Framing.encodeItems, Framing.Item.encode]
      · show _ = (s.added ++ [req]).map BinClient.Request.data
        rw [Framing.messages, List.filterMap_append, ← Framing.messages, hmessages]
        simp
  | performSend r => exact ⟨items, hfits, (BinClient.Connection.stream_performSend r s.conn).trans hstream, hmessages⟩
  | checkKeepAlive now r =>
      rcases BinClient.Connection.stream_checkKeepAlive now r s.conn with hs | hs
      · exact ⟨items, hfits, hs.trans hstream, hmessages⟩
      · refine ⟨items ++ [.ignored keepaliveByte], ?_, ?_, ?_⟩
        · intro item hitem
          rcases List.mem_append.mp hitem with hitem | hitem
          · exact hfits item hitem
          · rw [List.mem_singleton.mp hitem]
            rfl
        · refine hs.trans ?_
          rw [hstream]
          simp [Framing.encodeItems, Framing.Item.encode]
          rfl
        · rw [Framing.messages, List.filterMap_append, ← Framing.messages, hmessages]
          exact List.append_nil _
  | performRecv junk rs =>
      obtain ⟨haccepted, hbuffer⟩ := stream_performRecv junk rs s.conn
      refine ⟨items, hfits, ?_, hmessages⟩
      show (s.conn.performRecv junk rs).conn.accepted ++ (s.conn.performRecv junk rs).conn.sendBuffer = _
      rw [haccepted, hbuffer]
      exact hstream

/-- The server sees more and more of it. -/
theorem accepted_perform (s : Session) (op : Op) : s.conn.accepted <+: (s.perform op).conn.accepted := by
  have hsend : ∀ (r : SendResult) (c : BinClient.Connection), c.accepted <+: (c.performSend r).1.accepted := by
    intro r c
    unfold BinClient.Connection.performSend
    split
    · exact List.prefix_refl _
    · split
      · exact List.prefix_refl _
      · exact List.prefix_refl _
      · dsimp only
        split <;> exact List.prefix_append _ _
  cases op with
  | addRequest req => exact List.prefix_refl _
  | performSend r => exact hsend r s.conn
  | checkKeepAlive now r =>
      show s.conn.accepted <+: (s.conn.checkKeepAlive now r).1.accepted
      unfold BinClient.Connection.checkKeepAlive
      split
      · exact hsend r { s.conn with
          lastActivityTs := now, sendBuffer := s.conn.sendBuffer ++ BinClient.keepaliveMessage }
      · exact List.prefix_refl _
  | performRecv junk rs =>
      refine ⟨[], ?_⟩
      rw [List.append_nil]
      exact (stream_performRecv junk rs s.conn).1.symm

/-! ## The server's stream -/

/-- **The client's parser reads the script**: the answers, in order. -/
theorem runs_script {CR : Type} {answer : Nat → CR → Bytes}
    (hsize : ∀ k request, (answer k request).length ≤ BinClient.messageSizeLimit) (handed : List CR) :
    BinClient.framing.machine.Runs .preamble (script answer handed).flatten (handed.mapIdx answer) .size [] := by
  let items := (handed.mapIdx answer).map Framing.Item.message
  have hframes : (handed.mapIdx fun k request => frame (answer k request)) = (handed.mapIdx answer).map frame := by
    rw [List.mapIdx_eq_iff]
    intro k
    rw [List.getElem?_map, List.getElem?_mapIdx, Option.map_map]
    rfl
  have hencode : (script answer handed).flatten =
      BinClient.framing.preamble ++ (Framing.encodeItems items ++ []) := by
    rw [List.append_nil, Framing.encodeItems, List.flatMap_map, List.flatMap_def, script, hframes]
    rfl
  have hmessages : Framing.messages items = handed.mapIdx answer := by
    rw [Framing.messages, List.filterMap_map]
    exact List.filterMap_some
  have hfits : ∀ item ∈ items, BinClient.framing.Fits item := by
    intro item hitem
    obtain ⟨m, hm, rfl⟩ := List.mem_map.mp hitem
    obtain ⟨k, hk, rfl⟩ := List.mem_mapIdx.mp hm
    exact hsize k _
  have hruns := Framing.runs_items BinClient.framing_readsNumerals items hfits []
  rw [hmessages] at hruns
  rw [hencode]
  exact (Framing.runs_preamble _).trans hruns

/-- What the callbacks were given so far begins what the stream received holds. -/
def Finished (s : Session) : Prop :=
  ∃ os u c, BinClient.framing.machine.Runs .preamble s.received (s.finished.map Prod.snd ++ os) u c

theorem finished_of_inStep (h : BinClient.Session.InStep s) : Finished s :=
  ⟨[], _, _, by rw [List.append_nil]; exact h.runs⟩

/-- Operations other than a receive leave the parser where it is. -/
theorem inStep_perform (h : BinClient.Session.InStep s) {op : Op} (hop : ∀ junk rs, op ≠ .performRecv junk rs) :
    BinClient.Session.InStep (s.perform op) := by
  have hsame : ∀ t : Session, t.conn.parser = s.conn.parser → t.received = s.received → t.finished = s.finished →
      BinClient.Session.InStep t := by
    intro t hparser hreceived hfinished
    obtain ⟨hinv, htaken, hruns, hstuck⟩ := h
    exact ⟨by rwa [hparser], by rwa [hparser], by rwa [hparser, hreceived, hfinished], by rwa [hparser]⟩
  cases op with
  | addRequest req => exact hsame _ rfl rfl rfl
  | performSend r => exact hsame _ (BinClient.Connection.performSend_kept r s.conn).2 rfl rfl
  | checkKeepAlive now r => exact hsame _ (BinClient.Connection.checkKeepAlive_kept now r s.conn).2 rfl rfl
  | performRecv junk rs => exact absurd rfl (hop junk rs)

/-- **A receive on a stream of frames** finishes requests with the messages it completes; if it leaves the
    connection in use, the parser is in step again. -/
theorem finished_performRecv (h : BinClient.Session.InStep s) (junk : Strings.Junk) (rs : List RecvResult)
    (hstays : BinClient.framing.machine.Stays Framing.Alive .preamble (s.received ++ BinClient.arrived rs)) :
    Finished (s.perform (.performRecv junk rs)) ∧ ((s.perform (.performRecv junk rs)).ended = false →
      BinClient.Session.InStep (s.perform (.performRecv junk rs))) := by
  constructor
  · by_cases hagain : BinClient.lastResult rs = .again
    · obtain ⟨os, u, c, hrun, hstuck, hall, -⟩ := h.exists_run (BinClient.arrived rs)
      obtain ⟨hfinished, -, -⟩ := BinClient.Connection.performRecv_again junk hagain s.conn
      have halive : Framing.Alive u := hstays _ u c hall
      rcases h.parsed junk hrun hstuck with ⟨-, p, hparsed, -⟩ | ⟨hfailed, -⟩ | ⟨hfailed, -⟩
      · refine ⟨os.drop s.conn.sentRequests.length, u, c, ?_⟩
        show BinClient.framing.machine.Runs .preamble (s.received ++ BinClient.arrived rs)
          ((s.finished ++ (s.conn.performRecv junk rs).finished).map Prod.snd ++ _) u c
        rw [hfinished, hparsed, List.map_append, map_snd_zip_eq_take, List.append_assoc, List.take_append_drop]
        exact hall
      · exact absurd hfailed halive
      · exact absurd hfailed halive
    · obtain ⟨hnone, -⟩ := BinClient.Connection.performRecv_not_again junk hagain s.conn
      refine ⟨[], s.conn.parser.phase, s.conn.parser.curToken ++ BinClient.arrived rs, ?_⟩
      show BinClient.framing.machine.Runs .preamble (s.received ++ BinClient.arrived rs)
        ((s.finished ++ (s.conn.performRecv junk rs).finished).map Prod.snd ++ []) _ _
      rw [hnone, List.append_nil, List.append_nil]
      exact h.runs.append_input _
  · intro hend
    rcases h.performRecv junk rs hend with hin | ⟨os, c, hrun, -⟩
    · exact hin
    · exact absurd rfl (hstays os .failed c hrun)

end

namespace ClientServer

variable {PS : Type} {pb : BinClient.Protobuf} {lib : Library PS BinServer.Parser (Option BinServer.Request)}
  {answer : Nat → Option BinServer.Request → Bytes} {i : Nat} {s t : ClientServer PS} {input : Input}

/-! ## The invariant -/

/-- The invariant of the two sides and of the streams between them. -/
structure Inv (pb : BinClient.Protobuf) (lib : Library PS BinServer.Parser (Option BinServer.Request))
    (answer : Nat → Option BinServer.Request → Bytes) (i : Nat) (s : ClientServer PS) : Prop where
  exchange : Exchange.Inv pb lib answer i s.exchange
  session : s.session.Inv
  inStep : s.session.ended = false → s.session.InStep
  sent : Sent s.session
  finished : Finished s.session
  toServer : s.exchange.fed <+: s.session.conn.accepted
  toClient : s.session.received <+: (s.exchange.server.conn i).accepted

theorem Inv.init (listenSock sock now n : Nat) : Inv pb lib answer i (init lib listenSock sock now n) := by
  obtain ⟨hinv, hin⟩ := BinClient.Session.inv_new sock now n
  exact ⟨Exchange.Inv.init listenSock i, hinv, fun _ => hin, sent_new sock now n, finished_of_inStep hin,
    List.nil_prefix, List.nil_prefix⟩

/-- Whatever the client has received is a stream of frames. -/
theorem Inv.stays (h : Exchange.Inv pb lib answer i s.exchange)
    (hsize : ∀ k request, (answer k request).length ≤ BinClient.messageSizeLimit) {bytes : Bytes}
    (hbytes : bytes <+: (s.exchange.server.conn i).accepted) :
    BinClient.framing.machine.Stays Framing.Alive .preamble bytes := by
  obtain ⟨rest, hrest⟩ := hbytes.trans h.accepted_prefix
  have hstays := (runs_script hsize s.exchange.handed).stays BinClient.framing.dead_outside_alive
    BinClient.framing.stuck_size_nil (show Framing.Alive .size by simp [Framing.Alive])
  rw [← hrest] at hstays
  exact hstays.of_append

/-- Whatever the server has read is the upgrade request, frames and keep-alive bytes. -/
theorem Inv.fed_prefix (h : Sent s.session) {bytes : Bytes} (hbytes : bytes <+: s.session.conn.accepted) :
    ∃ items : List Framing.Item, (∀ item ∈ items, BinServer.framing.Fits item) ∧
      bytes <+: BinClient.upgradeRequest ++ Framing.encodeItems items ∧
      Framing.messages items = s.session.added.map BinClient.Request.data := by
  obtain ⟨items, hfits, hstream, hmessages⟩ := h
  refine ⟨items, hfits, ?_, hmessages⟩
  rw [← hstream]
  exact hbytes.trans (List.prefix_append _ _)

/-- **A step of the client.** -/
theorem Inv.client (hsize : ∀ k request, (answer k request).length ≤ BinClient.messageSizeLimit)
    (h : Inv pb lib answer i s) {op : BinClient.Op} (hallowed : s.Allowed lib answer i (.client op))
    {session : BinClient.Session} (hstep : s.session.step op = some session) :
    Inv pb lib answer i { s with session := session } := by
  have hsession := h.session.step hstep
  obtain ⟨hend, rfl⟩ := BinClient.Session.step_eq_some hstep
  have hin := h.inStep hend
  have hsent : Sent (s.session.perform op) := by
    apply h.sent.perform
    rintro req rfl
    exact hallowed
  have hserver := h.toServer.trans (accepted_perform s.session op)
  by_cases hop : ∃ junk rs, op = .performRecv junk rs
  · obtain ⟨junk, rs, rfl⟩ := hop
    have hreceived : s.session.received ++ BinClient.arrived rs <+: (s.exchange.server.conn i).accepted := hallowed
    obtain ⟨hfinished, hnext⟩ := finished_performRecv hin junk rs (Inv.stays h.exchange hsize hreceived)
    exact ⟨h.exchange, hsession, hnext, hsent, hfinished, hserver, hreceived⟩
  · have hnext := inStep_perform hin fun junk rs heq => hop ⟨junk, rs, heq⟩
    have hsame : (s.session.perform op).received = s.session.received := by
      cases op with
      | performRecv junk rs => exact absurd ⟨junk, rs, rfl⟩ hop
      | _ => rfl
    refine ⟨h.exchange, hsession, fun _ => hnext, hsent, finished_of_inStep hnext, hserver, ?_⟩
    rw [hsame]
    exact h.toClient

/-- **A step of the server.** -/
theorem Inv.server (hlib : Speaks pb lib) (h : Inv pb lib answer i s) {input : Server.Input}
    (hallowed : s.Allowed lib answer i (.server input))
    {exchange : Exchange PS BinServer.Parser (Option BinServer.Request)}
    (hstep : s.exchange.step lib i input = some exchange) :
    Inv pb lib answer i { s with exchange := exchange } := by
  obtain ⟨hinput, hfed⟩ := hallowed
  obtain ⟨items, hfits, hstream, -⟩ := Inv.fed_prefix h.sent hfed
  have hexchange := h.exchange.step hlib hinput (Exchange.framed_of_stream hfits hstream) hstep
  obtain ⟨t, ht, rfl⟩ := Exchange.step_eq_some hstep
  have hchange := Server.change_of_step h.exchange.fine ht i
  exact ⟨hexchange, h.session, h.inStep, h.sent, h.finished, hfed,
    h.toClient.trans (hchange.accepted_prefix h.exchange.spare)⟩

/-- **Every step keeps the invariant.** -/
theorem Inv.step (hlib : Speaks pb lib)
    (hsize : ∀ k request, (answer k request).length ≤ BinClient.messageSizeLimit) (h : Inv pb lib answer i s)
    (hallowed : s.Allowed lib answer i input) (hstep : s.step lib i input = some t) : Inv pb lib answer i t := by
  cases input with
  | client op =>
      obtain ⟨session, hsession, rfl⟩ := Option.map_eq_some_iff.mp hstep
      exact h.client hsize hallowed hsession
  | server input =>
      obtain ⟨exchange, hexchange, rfl⟩ := Option.map_eq_some_iff.mp hstep
      exact h.server hlib hallowed hexchange

/-! ## What it says -/

/-- The request that the server makes of one of the client's. -/
def received (pb : BinClient.Protobuf) (req : BinClient.Request) : Option BinServer.Request :=
  some (BinServer.Request.ofDump pb req.data)

theorem requestsOf_eq {items : List Framing.Item} {added : List BinClient.Request}
    (h : Framing.messages items = added.map BinClient.Request.data) :
    Exchange.requestsOf pb items = added.map (received pb) := by
  rw [Exchange.requestsOf, h, List.map_map]
  rfl

/-- The requests taken for the handler are the first that the client has added. -/
theorem Inv.handed_prefix (h : Inv pb lib answer i s) : s.exchange.handed <+: s.session.added.map (received pb) := by
  obtain ⟨items, hfits, hstream, hmessages⟩ := Inv.fed_prefix h.sent h.toServer
  rw [← requestsOf_eq hmessages]
  exact (List.prefix_append _ _).trans (h.exchange.taken_prefix hfits hstream)

/-- The responses received so far are answers to the requests taken. -/
theorem Inv.messages_prefix (hsize : ∀ k request, (answer k request).length ≤ BinClient.messageSizeLimit)
    (h : Inv pb lib answer i s) : s.session.finished.map Prod.snd <+: s.exchange.handed.mapIdx answer := by
  obtain ⟨os, u, c, hrun⟩ := h.finished
  obtain ⟨rest, hrest⟩ := h.toClient.trans h.exchange.accepted_prefix
  have hall := hrun.append_input rest
  rw [hrest] at hall
  obtain ⟨os', hos, -⟩ := hall.extend (runs_script hsize s.exchange.handed) BinClient.framing.stuck_size_nil
  rw [hos, List.append_assoc]
  exact List.prefix_append _ _

/-- A prefix stays one when its entries are numbered. -/
theorem mapIdx_prefix_mapIdx {α β : Type} (f : Nat → α → β) {xs ys : List α} (h : xs <+: ys) :
    xs.mapIdx f <+: ys.mapIdx f := by
  obtain ⟨rest, rfl⟩ := h
  rw [List.mapIdx_append]
  exact List.prefix_append _ _

/-- **The callbacks made are the first requests with their answers.** -/
theorem Inv.callbacks (hsize : ∀ k request, (answer k request).length ≤ BinClient.messageSizeLimit)
    (h : Inv pb lib answer i s) :
    s.session.finished <+: s.session.added.mapIdx fun k req => (req, answer k (received pb req)) := by
  have hfst : s.session.finished.map Prod.fst <+: s.session.added := ⟨_, h.session.split⟩
  have hsnd := (h.messages_prefix hsize).trans (mapIdx_prefix_mapIdx answer h.handed_prefix)
  rw [List.prefix_iff_getElem?] at hfst hsnd ⊢
  intro k hk
  have hreq := hfst k (by rwa [List.length_map])
  have hresp := hsnd k (by rwa [List.length_map])
  rw [List.getElem_map] at hreq hresp
  rw [List.getElem?_mapIdx, List.getElem?_map, hreq] at hresp
  rw [List.getElem?_mapIdx, hreq]
  have hanswer := Option.some.inj hresp
  exact congrArg some (Prod.ext rfl hanswer)

/-- **Every callback gets the answer to its own request.** However the steps of the client, of the server, of
    the handlers and of the server's other connections interleave, and in whatever pieces the sockets take
    and return the bytes: in every state of a run, the calls `onFinished(true, ..)` made on the connection
    are for the first requests added to it, in their order, each once, with the answer to that request. -/
theorem callbacks_get_their_answers (hlib : Speaks pb lib)
    (hsize : ∀ k request, (answer k request).length ≤ BinClient.messageSizeLimit) (listenSock sock now n : Nat)
    {inputs : List Input}
    (hallowed : Along (step lib i) (Allowed lib answer i) (init lib listenSock sock now n) inputs)
    (hrun : (init lib listenSock sock now n).run lib i inputs = some s) :
    s.session.finished <+: s.session.added.mapIdx fun k req => (req, answer k (received pb req)) := by
  have hinv : Inv pb lib answer i s :=
    hallowed.invariant (Inv pb lib answer i) (Inv.step hlib hsize) (Inv.init listenSock sock now n) hrun
  exact hinv.callbacks hsize

/-! ### One call -/

/-- What is promised, in a form that can be computed. -/
def checked (lib : Library PS BinServer.Parser (Option BinServer.Request))
    (answer : Nat → Option BinServer.Request → Bytes) (i : Nat) (s : ClientServer PS) : Input → Bool
  | .client (.addRequest req) => decide (req.data.length ≤ BinServer.binrequestMaxSize)
  | .client (.performRecv _ rs) =>
      (s.session.received ++ BinClient.arrived rs).isPrefixOf (s.exchange.server.conn i).accepted
  | .client _ => true
  | .server input =>
      Exchange.checked lib answer i s.exchange input &&
        (s.exchange.fed ++ Exchange.bytesRead i s.exchange.server input).isPrefixOf s.session.conn.accepted

theorem allowed_of_checked {input : Input} (h : checked lib answer i s input = true) :
    Allowed lib answer i s input := by
  cases input with
  | client op =>
      cases op with
      | addRequest req =>
          rw [checked, decide_eq_true_eq] at h
          exact h
      | performRecv junk rs => exact List.isPrefixOf_iff_prefix.mp h
      | performSend r => trivial
      | checkKeepAlive now r => trivial
  | server input =>
      obtain ⟨hchecked, hbytes⟩ := Bool.and_eq_true_iff.mp h
      exact ⟨Exchange.allowed_of_checked hchecked, List.isPrefixOf_iff_prefix.mp hbytes⟩

/-- A request whose callback has the identity `0`. -/
def pingRequest : BinClient.Request := ⟨0, BinClient.buildRequest BinClient.shortWire BinClient.pingCall⟩

/-- A call up to the response on its way: the client has connected with the upgrade request, adds its request
    before the handshake has come, and sends it in two pieces; the handler answers at once. -/
def halfTrip : List Input :=
  [.server (.poll [.accept]), .server (.accept [5] 0), .server .lock, .server (.finish 0),
    .server (.poll [.read 5]), .server (.read [.data BinClient.upgradeRequest, .again] 0 ⟨[], false⟩),
    .client (.addRequest pingRequest), .client (.performSend (.accepted 2)), .server .lock,
    .server (.drain (.accepted 999) 0 ⟨[], false⟩), .server (.finish 0),
    .client (.performRecv (fun _ => 7) [.data BinClient.handshakeMessage, .again]),
    .client (.performSend (.accepted 999)), .server (.poll [.read 5]),
    .server (.read [.data (frame pingRequest.data), .again] 0 ⟨[.custom (frame (ascii "pong"))], false⟩),
    .server .lock, .server (.drain (.accepted 999) 0 ⟨[], false⟩)]

/-- What the client receives then. -/
def lastReceive : List RecvResult := [.data (frame (ascii "pong")), .again]

/-- The whole call. -/
def roundTrip : List Input := halfTrip ++ [.client (.performRecv (fun _ => 7) lastReceive)]

theorem roundTrip_allowed :
    Along (step hiapiLibrary 0) (Allowed hiapiLibrary Exchange.pong 0) (init hiapiLibrary 3 9 0 999) roundTrip := by
  have hchecked : Along (step hiapiLibrary 0) (fun s input => checked hiapiLibrary Exchange.pong 0 s input = true)
      (init hiapiLibrary 3 9 0 999) roundTrip := by decide +kernel
  exact hchecked.imp fun s input => allowed_of_checked

theorem roundTrip_runs : ((init hiapiLibrary 3 9 0 999).run hiapiLibrary 0 roundTrip).isSome = true := by
  decide +kernel

theorem pong_short (k : Nat) (request : Option BinServer.Request) :
    (Exchange.pong k request).length ≤ BinClient.messageSizeLimit := by
  show (ascii "pong").length ≤ BinClient.messageSizeLimit
  decide

theorem roundTrip_calls_back :
    ∃ s, (init hiapiLibrary 3 9 0 999).run hiapiLibrary 0 roundTrip = some s ∧ s.session.finished.length = 1 ∧
      s.session.finished <+:
        s.session.added.mapIdx fun k req => (req, Exchange.pong k (received BinClient.shortWire req)) := by
  refine ⟨_, (Option.some_get roundTrip_runs).symm, by decide +kernel, ?_⟩
  exact callbacks_get_their_answers hiapiLibrary_speaks pong_short 3 9 0 999 roundTrip_allowed
    (Option.some_get roundTrip_runs).symm

/-! ## Nothing is lost -/

/-- Both sides are up, and nothing is on the way: all bytes sent have been received, no request waits, and
    no answer is still to be given, queued or sent. -/
structure Quiet (i : Nat) (s : ClientServer PS) : Prop where
  running : s.session.ended = false
  serving : s.exchange.server.undefined = false ∧ s.exchange.server.phase ≠ .deadlocked
  connected : s.exchange.server.InTable i
  clientSent : s.session.conn.sendBuffer = []
  serverRead : s.exchange.fed = s.session.conn.accepted
  noneWaiting : (s.exchange.server.conn i).customRequests = []
  noneOpen : ∀ k, ¬ s.exchange.server.Pending i k
  noneQueued : s.exchange.server.entries i = []
  serverSent : (s.exchange.server.conn i).accepted = (s.exchange.server.conn i).output
  clientRead : s.session.received = (s.exchange.server.conn i).accepted

/-- When nothing is on the way, all requests added have been taken for the handler. -/
theorem Inv.handed_eq (h : Inv pb lib answer i s) (hquiet : Quiet i s) :
    i < s.exchange.server.allocated ∧ (s.exchange.server.objects i).dispatched = s.exchange.handed.length + 1 ∧
      s.exchange.handed = s.session.added.map (received pb) := by
  obtain ⟨items, hfits, hstream, hmessages⟩ := h.sent
  have hfed : s.exchange.fed = BinClient.upgradeRequest ++ Framing.encodeItems items := by
    rw [hquiet.serverRead, ← hstream, BinClient.Connection.stream, hquiet.clientSent, List.append_nil]
  cases h.exchange.serving with
  | fresh stage fed handed =>
      have hnil := List.append_eq_nil_iff.mp (hfed.symm.trans fed)
      exact absurd hnil.1 (by decide)
  | lost keepalives ignored here gone fed handed queue dispatched answers => exact absurd hquiet.connected gone
  | upgraded here stage =>
      obtain ⟨keepalives, stream, p, ignored, split, -, -, -, -, -, runs, stuck, count, -⟩ := stage
      refine ⟨here, count, ?_⟩
      have hnone : (s.exchange.server.objects i).conn.customRequests = [] := hquiet.noneWaiting
      rw [hnone, List.append_nil] at runs
      have hitems : keepalives ++ stream = Framing.encodeItems items :=
        List.append_cancel_left (split.symm.trans hfed)
      have hall := (runs_keepalives pb ignored stream).trans runs
      rw [hitems, List.nil_append] at hall
      obtain ⟨hhanded, -⟩ :=
        hall.unique stuck (Exchange.runs_requestsOf hfits) BinServer.framing.stuck_size_nil.mapOut
      rw [hhanded, requestsOf_eq hmessages]

/-- When nothing is on the way, all the responses have been queued. -/
theorem Inv.added_eq (h : Inv pb lib answer i s) (hquiet : Quiet i s) :
    (s.exchange.server.objects i).added.map Prod.snd = script answer s.exchange.handed := by
  obtain ⟨here, hcount, -⟩ := h.handed_eq hquiet
  have hstrong := h.exchange.fine.strong hquiet.serving.1 hquiet.serving.2
  have hlength : (s.exchange.server.objects i).dispatched = (s.exchange.server.objects i).added.length := by
    cases hstrong.stage here with
    | settled count answered none => exact count
    | handling count answered open_ none waiting =>
        refine absurd ⟨here, ?_, open_⟩ (hquiet.noneOpen (s.exchange.server.objects i).added.length)
        rw [count]
        exact Nat.lt_succ_self _
    | queued r count answered one mem waiting =>
        rw [hquiet.noneQueued] at one
        exact absurd one (by simp)
    | lost count answered none gone => exact absurd hquiet.connected gone
  apply (h.exchange.added_prefix here).eq_of_length
  rw [List.length_map, ← hlength, hcount, script, List.length_cons, List.length_mapIdx]

/-- **No request is lost.** When both sides are up and nothing is on the way any more, every request added to
    the connection has been answered. -/
theorem all_answered_when_quiet (hlib : Speaks pb lib)
    (hsize : ∀ k request, (answer k request).length ≤ BinClient.messageSizeLimit) (listenSock sock now n : Nat)
    {inputs : List Input}
    (hallowed : Along (step lib i) (Allowed lib answer i) (init lib listenSock sock now n) inputs)
    (hrun : (init lib listenSock sock now n).run lib i inputs = some s) (hquiet : Quiet i s) :
    s.session.finished = s.session.added.mapIdx fun k req => (req, answer k (received pb req)) := by
  have h : Inv pb lib answer i s :=
    hallowed.invariant (Inv pb lib answer i) (Inv.step hlib hsize) (Inv.init listenSock sock now n) hrun
  obtain ⟨here, -, hhanded⟩ := h.handed_eq hquiet
  -- the client has received the whole script
  have houtput : (s.exchange.server.conn i).output = (script answer s.exchange.handed).flatten := by
    rw [← h.added_eq hquiet]
    exact (h.exchange.fine.safe.sound here).output
  have hreceived : s.session.received = (script answer s.exchange.handed).flatten := by
    rw [hquiet.clientRead, hquiet.serverSent, houtput]
  have hin := h.inStep hquiet.running
  have hruns := hin.runs
  rw [hreceived] at hruns
  obtain ⟨hmessages, -⟩ :=
    hruns.unique hin.stuck (runs_script hsize s.exchange.handed) BinClient.framing.stuck_size_nil
  have hlength := congrArg List.length hmessages
  rw [List.length_map, List.length_mapIdx, hhanded, List.length_map] at hlength
  apply (h.callbacks hsize).eq_of_length
  rw [hlength, List.length_mapIdx]

/-- The state that the call ends in. -/
def afterTrip : ClientServer Unit := ((init hiapiLibrary 3 9 0 999).run hiapiLibrary 0 roundTrip).get roundTrip_runs

theorem afterTrip_quiet : Quiet 0 afterTrip where
  running := by decide +kernel
  serving := by decide +kernel
  connected := by
    unfold Server.InTable
    decide +kernel
  clientSent := by decide +kernel
  serverRead := by decide +kernel
  noneWaiting := List.isEmpty_iff.mp (by decide +kernel)
  noneOpen := by
    have hanswered : ∀ k < (afterTrip.exchange.server.objects 0).dispatched,
        ∃ a ∈ (afterTrip.exchange.server.objects 0).answers, a.1 = k := by decide +kernel
    rintro k ⟨-, hk, hopen⟩
    obtain ⟨a, ha, hk⟩ := hanswered k hk
    exact hopen a ha hk
  noneQueued := by decide +kernel
  serverSent := by decide +kernel
  clientRead := by decide +kernel

theorem roundTrip_answered :
    (init hiapiLibrary 3 9 0 999).run hiapiLibrary 0 roundTrip = some afterTrip ∧ Quiet 0 afterTrip ∧
      afterTrip.session.finished.length = 1 ∧
      afterTrip.session.finished =
        afterTrip.session.added.mapIdx fun k req => (req, Exchange.pong k (received BinClient.shortWire req)) := by
  refine ⟨(Option.some_get roundTrip_runs).symm, afterTrip_quiet, by decide +kernel, ?_⟩
  exact all_answered_when_quiet hiapiLibrary_speaks pong_short 3 9 0 999 roundTrip_allowed
    (Option.some_get roundTrip_runs).symm afterTrip_quiet

/-- **The server never makes the client give up.** A receive that reads all there is ends neither with an
    exception of the parser, nor at an empty queue of requests. -/
theorem receive_keeps_session (hlib : Speaks pb lib)
    (hsize : ∀ k request, (answer k request).length ≤ BinClient.messageSizeLimit) (listenSock sock now n : Nat)
    {inputs : List Input}
    (hallowed : Along (step lib i) (Allowed lib answer i) (init lib listenSock sock now n) inputs)
    (hrun : (init lib listenSock sock now n).run lib i inputs = some s) (junk : Strings.Junk)
    {rs : List RecvResult} (hreceive : s.Allowed lib answer i (.client (.performRecv junk rs)))
    (hagain : BinClient.lastResult rs = .again) (hrunning : s.session.ended = false) :
    (s.session.perform (.performRecv junk rs)).ended = false := by
  have h : Inv pb lib answer i s :=
    hallowed.invariant (Inv pb lib answer i) (Inv.step hlib hsize) (Inv.init listenSock sock now n) hrun
  have hin := h.inStep hrunning
  have hstays := Inv.stays h.exchange hsize hreceive
  obtain ⟨os, u, c, hrun', hstuck, hall, -⟩ := hin.exists_run (BinClient.arrived rs)
  have halive : Framing.Alive u := hstays _ u c hall
  rcases hin.parsed junk hrun' hstuck with ⟨-, p, hparsed, -⟩ | ⟨hfailed, -⟩ | ⟨hfailed, -⟩
  · -- there is a request for each response, since the server answers only what was sent to it
    have hfew : os.length ≤ s.session.conn.sentRequests.length := by
      obtain ⟨rest, hrest⟩ := List.IsPrefix.trans hreceive h.exchange.accepted_prefix
      have hmore := hall.append_input rest
      rw [hrest] at hmore
      obtain ⟨os', hos, -⟩ := hmore.extend (runs_script hsize s.exchange.handed) BinClient.framing.stuck_size_nil
      have hlength := congrArg List.length hos
      have hhanded := h.handed_prefix.length_le
      have hadded := h.session.length_added
      rw [List.length_mapIdx, List.length_append, List.length_append] at hlength
      rw [List.length_map] at hhanded
      omega
    show ((s.session.conn.performRecv junk rs).thrown.isSome ||
      (s.session.conn.performRecv junk rs).undefined) = false
    rw [BinClient.Connection.performRecv, BinClient.Connection.recvLoop_again hagain, List.nil_append]
    dsimp only
    rw [BinClient.Connection.afterRecv_eq, hparsed]
    simp [Nat.not_lt.mpr hfew]
  · exact absurd hfailed halive
  · exact absurd hfailed halive

theorem halfTrip_runs : ((init hiapiLibrary 3 9 0 999).run hiapiLibrary 0 halfTrip).isSome = true := by
  decide +kernel

theorem halfTrip_receives :
    ∃ s, (init hiapiLibrary 3 9 0 999).run hiapiLibrary 0 halfTrip = some s ∧ s.session.finished = [] ∧
      (s.session.perform (.performRecv (fun _ => 7) lastReceive)).ended = false := by
  have hallowed := roundTrip_allowed.of_prefix (List.prefix_append halfTrip _)
  have hreceive : checked hiapiLibrary Exchange.pong 0 (((init hiapiLibrary 3 9 0 999).run hiapiLibrary 0
      halfTrip).get halfTrip_runs) (.client (.performRecv (fun _ => 7) lastReceive)) = true := by decide +kernel
  refine ⟨_, (Option.some_get halfTrip_runs).symm, List.isEmpty_iff.mp (by decide +kernel), ?_⟩
  exact receive_keeps_session hiapiLibrary_speaks pong_short 3 9 0 999 hallowed (Option.some_get halfTrip_runs).symm
    (fun _ => 7) (allowed_of_checked hreceive) rfl (by decide +kernel)

end ClientServer

end Hiapi
end Hiaux
