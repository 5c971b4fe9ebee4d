import Hiaux.BinClient.Correctness.Wire
import Hiaux.BinServer.Correctness.Framing
import Hiaux.Hiapi.Exchange

/-!
# `Hiapi.Correctness.Service` — what a client gets is a function of what it sends

A connection of the server goes through two stages. Until the upgrade request is read nothing is dispatched
on it (`Fresh`). From then on the parser is where the framing machine is, the requests taken from the queue
and those waiting in it are the ones that the machine has emitted, and every reply given is the frame of the
answer to its request (`Upgraded`). Each way in which a step can change the connection (`Server.Change`)
keeps this, so in every run the bytes that the peer gets are determined by the bytes it has sent.
-/

namespace Hiaux
namespace Hiapi

open Lib Network HttpServer
open BinServer (requests keepaliveByte)

variable {PS : Type} {pb : BinClient.Protobuf} {lib : Library PS BinServer.Parser (Option BinServer.Request)}

/-! ## What is sent to a client -/

/-- The responses on a connection, once everything is answered: the handshake, and the framed answers. -/
def script {CR : Type} (answer : Nat → CR → Bytes) (handed : List CR) : List Bytes :=
  BinClient.handshakeMessage :: handed.mapIdx fun k request => frame (answer k request)

/-- More requests only add to it. -/
theorem script_prefix {CR : Type} (answer : Nat → CR → Bytes) (handed more : List CR) :
    script answer handed <+: script answer (handed ++ more) := by
  unfold script
  rw [List.mapIdx_append]
  exact List.cons_prefix_cons.mpr ⟨rfl, List.prefix_append _ _⟩

theorem getElem?_script_concat {CR : Type} (answer : Nat → CR → Bytes) (handed : List CR) (request : CR) :
    (script answer (handed ++ [request]))[handed.length + 1]? = some (frame (answer handed.length request)) := by
  simp [script, List.mapIdx_append]

/-- Every reply given is the one that the script has for its request. -/
def Answering {CR : Type} (answer : Nat → CR → Bytes) (handed : List CR) (answers : List (Nat × Reply)) : Prop :=
  ∀ a ∈ answers, ∃ bytes, (script answer handed)[a.1]? = some bytes ∧ a.2 = .custom bytes

section

variable {CR : Type} {answer : Nat → CR → Bytes} {handed : List CR} {answers : List (Nat × Reply)}

theorem Answering.more (h : Answering answer handed answers) (more : List CR) :
    Answering answer (handed ++ more) answers := by
  intro a ha
  obtain ⟨bytes, hscript, hreply⟩ := h a ha
  obtain ⟨rest, hrest⟩ := script_prefix answer handed more
  refine ⟨bytes, ?_, hreply⟩
  rw [← hrest, List.getElem?_append_left (List.getElem?_eq_some_iff.mp hscript).1]
  exact hscript

/-- More replies, all of them to one request. -/
theorem Answering.append (h : Answering answer handed answers) {k : Nat} {bytes : Bytes} {given : List Reply}
    (hscript : (script answer handed)[k]? = some bytes) (hgiven : ∀ r ∈ given, r = .custom bytes) :
    Answering answer handed (answers ++ given.map fun r => (k, r)) := by
  intro a ha
  rcases List.mem_append.mp ha with ha | ha
  · exact h a ha
  · obtain ⟨r, hr, rfl⟩ := List.mem_map.mp ha
    exact ⟨bytes, hscript, hgiven r hr⟩

end

/-! ## The stages of a connection -/

variable {answer : Nat → Option BinServer.Request → Bytes}
  {o o' : Object PS BinServer.Parser (Option BinServer.Request)} {fed : Bytes}
  {handed : List (Option BinServer.Request)}

/-- Nothing has been made of the bytes read, if there were any. -/
structure Fresh (lib : Library PS BinServer.Parser (Option BinServer.Request))
    (o : Object PS BinServer.Parser (Option BinServer.Request)) : Prop where
  intake : o.conn.intake = (HttpConnection.new lib 0 0).intake
  free : o.conn.waitingLastHandling = false
  dispatched : o.dispatched = 0
  answers : o.answers = []

/-- The upgrade has been granted. Behind the keep-alive bytes that came with the request for it, the parser
    has read the `stream`; its requests have been taken from the queue or wait there. -/
inductive Upgraded (pb : BinClient.Protobuf) (answer : Nat → Option BinServer.Request → Bytes)
    (o : Object PS BinServer.Parser (Option BinServer.Request)) (fed : Bytes)
    (handed : List (Option BinServer.Request)) : Prop where
  | intro (keepalives stream : Bytes) (p : BinServer.Parser) (ignored : ∀ b ∈ keepalives, b = keepaliveByte)
      (split : fed = BinClient.upgradeRequest ++ (keepalives ++ stream)) (mode : o.conn.customProtocol = true)
      (protocol : o.conn.customProtocolId = ascii "hiapi") (parser : o.conn.customParser = some p) (inv : p.Inv)
      (taken : p.gotRequest = false)
      (runs : (requests pb).Runs .size stream (handed ++ o.conn.customRequests) p.phase p.curToken)
      (stuck : (requests pb).Stuck p.phase p.curToken) (count : o.dispatched = handed.length + 1)
      (answering : Answering answer handed o.answers) (greeted : ∃ a ∈ o.answers, a.1 = 0)

/-- Sending does not change the stage. -/
theorem Fresh.of_intake (h : Fresh lib o) (hintake : o'.conn.intake = o.conn.intake)
    (hfree : o'.conn.waitingLastHandling = false) (hdispatched : o'.dispatched = o.dispatched)
    (hanswers : o'.answers = o.answers) : Fresh lib o' :=
  ⟨hintake.trans h.intake, hfree, hdispatched.trans h.dispatched, hanswers.trans h.answers⟩

theorem Upgraded.of_intake (h : Upgraded pb answer o fed handed) (hintake : o'.conn.intake = o.conn.intake)
    (hdispatched : o'.dispatched = o.dispatched) (hanswers : o'.answers = o.answers) :
    Upgraded pb answer o' fed handed := by
  have hmode : o'.conn.customProtocol = o.conn.customProtocol := congrArg Intake.customProtocol hintake
  have hprotocol : o'.conn.customProtocolId = o.conn.customProtocolId := congrArg Intake.customProtocolId hintake
  have hparser : o'.conn.customParser = o.conn.customParser := congrArg Intake.customParser hintake
  have hqueue : o'.conn.customRequests = o.conn.customRequests := congrArg Intake.customRequests hintake
  obtain ⟨keepalives, stream, p, ignored, split, mode, protocol, parser, inv, taken, runs, stuck, count, answering,
    greeted⟩ := h
  exact .intro keepalives stream p ignored split (hmode.trans mode) (hprotocol.trans protocol)
    (hparser.trans parser) inv taken (by rwa [hqueue]) stuck (hdispatched.trans count) (by rwa [hanswers])
    (by rwa [hanswers])

/-! ## Dispatching -/

/-- Where nothing has been read, nothing is dispatched. -/
theorem Fresh.dispatched_eq {out : HandlerOutcome} (h : Fresh lib o) (hd : Dispatched lib out o o') : o' = o := by
  have hhttp : o.conn.httpRequests = [] := congrArg Intake.httpRequests h.intake
  have hcustom : o.conn.customRequests = [] := congrArg Intake.customRequests h.intake
  cases hd with
  | idle _ => rfl
  | upgrade http next granted => exact absurd (hhttp.symm.trans next) (by simp)
  | http http next plain replies => exact absurd (hhttp.symm.trans next) (by simp)
  | custom free next known replies => exact absurd (hcustom.symm.trans next) (by simp)
  | unknown free next unknown => exact absurd (hcustom.symm.trans next) (by simp)

/-- **The next request is taken for the handler**, whose replies are its answer. -/
theorem Upgraded.dispatched (hlib : Speaks pb lib) {out : HandlerOutcome} (h : Upgraded pb answer o fed handed)
    (hd : Dispatched lib out o o')
    (hhonest : ∀ request ∈ o.conn.customRequests.head?, ∀ r ∈ out.replies,
      r = .custom (frame (answer handed.length request))) :
    Upgraded pb answer o' fed (handed ++ o.conn.customRequests.take
      (o.conn.customRequests.length - o'.conn.customRequests.length)) := by
  have hsame := h
  obtain ⟨keepalives, stream, p, ignored, split, mode, protocol, parser, inv, taken, runs, stuck, count, answering,
    greeted⟩ := h
  cases hd with
  | idle _ =>
      rw [Nat.sub_self, List.take_zero, List.append_nil]
      exact hsame
  | upgrade http next granted => exact absurd (mode.symm.trans http) (by decide)
  | http http next plain replies => exact absurd (mode.symm.trans http) (by decide)
  | @custom request rest given free next known replies =>
      have htake : o.conn.customRequests.take (o.conn.customRequests.length - rest.length) = [request] := by
        simp [next]
      rw [htake]
      refine .intro keepalives stream p ignored split mode protocol parser inv taken ?_ stuck ?_ ?_ ?_
      · rw [List.append_assoc, List.singleton_append, ← next]
        exact runs
      · rw [count, List.length_append, List.length_singleton]
      · have hscript : (script answer (handed ++ [request]))[o.dispatched]? =
            some (frame (answer handed.length request)) := by
          rw [count]
          exact getElem?_script_concat answer handed request
        apply (answering.more [request]).append hscript
        intro r hr
        exact hhonest request (by rw [next]; rfl) r (replies.subset hr)
      · obtain ⟨a, ha, hzero⟩ := greeted
        exact ⟨a, List.mem_append_left _ ha, hzero⟩
  | unknown free next unknown =>
      rw [protocol, hlib.protocol] at unknown
      exact absurd unknown (by simp)

/-! ## Reading -/

/-- **The parser follows the framing machine** on a stream of frames. -/
theorem received_of_stays {junk : Strings.Junk} (hparser : lib.customParser = customParser pb junk)
    {p : BinServer.Parser} {stream d : Bytes} {done : List (Option BinServer.Request)} (inv : p.Inv)
    (taken : p.gotRequest = false) (runs : (requests pb).Runs .size stream done p.phase p.curToken)
    (stuck : (requests pb).Stuck p.phase p.curToken)
    (hstays : (requests pb).Stays Framing.Alive .size (stream ++ d)) :
    ∃ os p', (if d.length > 0 then lib.customParser.receive p d else lib.customParser.drain p) = ⟨os, p', none⟩ ∧
      p'.Inv ∧ p'.gotRequest = false ∧
      (requests pb).Runs .size (stream ++ d) (done ++ os) p'.phase p'.curToken ∧
      (requests pb).Stuck p'.phase p'.curToken := by
  have htaken : lib.customParser.has p = false := by
    rw [hparser]
    exact taken
  by_cases hnil : d.length > 0
  · obtain ⟨os, t, c, hrun, hstuck⟩ := (requests pb).exists_runs_stuck p.phase (p.curToken ++ d)
    have hall := (runs.append_input d).trans hrun
    have hsim : Reader.Simulates (requests pb) BinServer.Parser.phase BinServer.Parser.curToken
        BinServer.Parser.Inv lib.customParser Framing.Alive := by
      rw [hparser]
      exact (BinServer.Parser.reader_simulates pb junk).mapThrown _
    obtain ⟨p', hreceive, hinv, hhas, rfl, rfl⟩ :=
      Reader.receive_of_runs hsim inv htaken hrun hstuck (hstays _ t c hall)
    rw [if_pos hnil, hreceive]
    refine ⟨os, p', rfl, hinv, ?_, hall, hstuck⟩
    rw [hparser] at hhas
    exact hhas
  -- nothing has been read: the drain finds the slot empty
  · obtain rfl : d = [] := List.length_eq_zero_iff.mp (Nat.eq_zero_of_not_pos hnil)
    rw [if_neg hnil, Reader.drain_of_not_has _ htaken]
    refine ⟨[], p, rfl, inv, taken, ?_, stuck⟩
    rw [List.append_nil, List.append_nil]
    exact runs

/-- Keep-alive bytes in front of a stream are skipped. -/
theorem runs_keepalives (pb : BinClient.Protobuf) {keepalives : Bytes} (ignored : ∀ b ∈ keepalives, b = keepaliveByte)
    (rest : Bytes) : (requests pb).Runs .size (keepalives ++ rest) [] .size rest := by
  have hignored : ∀ b ∈ keepalives, BinServer.framing.skip b = true := fun b hb => beq_iff_eq.mpr (ignored b hb)
  exact (Framing.runs_ignored hignored rest).mapOut

/-- **A read of an upgraded connection** queues the requests that the bytes complete. -/
theorem Upgraded.performRecv (hlib : Speaks pb lib) (h : Upgraded pb answer o fed handed) (rs : List RecvResult)
    (now : Nat) (hstays : (requests pb).Stays Framing.Alive .size
      ((fed ++ (HttpConnection.recvLoop [] rs).getD []).drop BinClient.upgradeRequest.length)) :
    Upgraded pb answer { o with conn := (o.conn.performRecv lib rs now).1 }
      (fed ++ (HttpConnection.recvLoop [] rs).getD []) handed := by
  have hsame := h
  obtain ⟨keepalives, stream, p, ignored, split, mode, protocol, parser, inv, taken, runs, stuck, count, answering,
    greeted⟩ := h
  unfold HttpConnection.performRecv
  cases hloop : HttpConnection.recvLoop [] rs with
  | none =>
      rw [Option.getD_none, List.append_nil]
      exact hsame.of_intake rfl rfl rfl
  | some readbf =>
      dsimp only [Option.getD_some]
      rw [mode, parser]
      dsimp only
      rw [if_pos rfl]
      rw [hloop, Option.getD_some, split, List.append_assoc, List.append_assoc, List.drop_left] at hstays
      obtain ⟨junk, hjunk⟩ := hlib.parser
      obtain ⟨os, p', hreceived, hinv, htaken, hruns, hstuck⟩ :=
        received_of_stays hjunk inv taken runs stuck (hstays.of_runs (runs_keepalives pb ignored _))
      unfold HttpConnection.receiveCustom
      rw [hreceived]
      refine .intro keepalives (stream ++ readbf) p' ignored ?_ mode protocol rfl hinv htaken ?_ hstuck count answering
        greeted
      · rw [split, List.append_assoc, List.append_assoc]
      · rw [← List.append_assoc]
        exact hruns

/-- A read that returns nothing leaves a connection as it was. -/
theorem Fresh.performRecv (h : Fresh lib o) {rs : List RecvResult} (now : Nat)
    (hnil : (HttpConnection.recvLoop [] rs).getD [] = []) :
    Fresh lib { o with conn := (o.conn.performRecv lib rs now).1 } := by
  have hmode : o.conn.customProtocol = false := congrArg Intake.customProtocol h.intake
  have hfinished : o.conn.assembly.requestFinished = false :=
    congrArg (fun intake => intake.assembly.requestFinished) h.intake
  unfold HttpConnection.performRecv
  cases hloop : HttpConnection.recvLoop [] rs with
  | none => exact h.of_intake rfl h.free rfl rfl
  | some readbf =>
      rw [hloop, Option.getD_some] at hnil
      subst hnil
      dsimp only
      rw [hmode, if_neg (by decide)]
      have hsame : HttpConnection.receiveHttp lib now [] o.conn = o.conn := by
        unfold HttpConnection.receiveHttp
        dsimp only [List.length_nil]
        rw [if_neg (Nat.lt_irrefl 0), hfinished, if_neg (by decide)]
      rw [hsame]
      exact h

/-- **The upgrade request is understood.** -/
theorem Fresh.request (hlib : Speaks pb lib) (h : Fresh lib o) {rs : List RecvResult} (now : Nat)
    {keepalives : Bytes} (hkeepalives : ∀ b ∈ keepalives, b = keepaliveByte)
    (hread : HttpConnection.recvLoop [] rs = some (BinClient.upgradeRequest ++ keepalives)) :
    let c := (o.conn.performRecv lib rs now).1
    c.customProtocol = false ∧ c.customRequests = [] ∧ c.waitingLastHandling = false ∧
      ∃ request, c.httpRequests = [request] ∧
        Server.getCustomParser lib request = some (ascii "hiapi", .init, BinClient.handshakeMessage) := by
  intro c
  have hmode : o.conn.customProtocol = false := congrArg Intake.customProtocol h.intake
  have hassembly : o.conn.assembly = (HttpConnection.new lib 0 0).assembly := congrArg Intake.assembly h.intake
  have hparser : o.conn.parser = lib.httpParserInit := congrArg Intake.parser h.intake
  have hhttp : o.conn.httpRequests = [] := congrArg Intake.httpRequests h.intake
  have hcustom : o.conn.customRequests = [] := congrArg Intake.customRequests h.intake
  obtain ⟨hfinished, hheader⟩ := hlib.upgrade keepalives hkeepalives
  have hsome : (BinClient.upgradeRequest ++ keepalives).length > 0 := by
    rw [List.length_append]
    exact Nat.add_pos_left (by decide) _
  have hc : c = (HttpConnection.receiveHttp lib now (BinClient.upgradeRequest ++ keepalives) o.conn) := by
    show (o.conn.performRecv lib rs now).1 = _
    unfold HttpConnection.performRecv
    rw [hread]
    dsimp only
    rw [hmode, if_neg (by decide)]
  unfold HttpConnection.receiveHttp at hc
  rw [if_pos hsome, hparser, hassembly] at hc
  generalize lib.httpParserExecute lib.httpParserInit (BinClient.upgradeRequest ++ keepalives) = executed at *
  obtain ⟨ps, cbs⟩ := executed
  dsimp only at hc hfinished hheader
  rw [if_pos hfinished, hhttp] at hc
  rw [hc]
  refine ⟨hmode, hcustom, h.free, _, rfl, ?_⟩
  unfold Server.getCustomParser
  rw [hheader]
  dsimp only
  rw [hlib.protocol]

/-- **The upgrade is granted** when the request for it is dispatched. -/
theorem Fresh.upgraded (hlib : Speaks pb lib) (h : Fresh lib o) {rs : List RecvResult} (now : Nat)
    {keepalives : Bytes} (hkeepalives : ∀ b ∈ keepalives, b = keepaliveByte)
    (hread : HttpConnection.recvLoop [] rs = some (BinClient.upgradeRequest ++ keepalives)) {out : HandlerOutcome}
    (hd : Dispatched lib out { o with conn := (o.conn.performRecv lib rs now).1 } o') :
    Upgraded pb answer o' (BinClient.upgradeRequest ++ keepalives) [] := by
  obtain ⟨hmode, hcustom, hfree, request, hhttp, hgranted⟩ := h.request hlib now hkeepalives hread
  cases hd with
  | idle hidle =>
      rcases hidle with hwait | ⟨-, hcustomMode | hnone⟩
      · exact absurd (hwait.symm.trans hfree) (by decide)
      · exact absurd (hcustomMode.symm.trans hmode) (by decide)
      · exact absurd (hnone.symm.trans hhttp) (by simp)
  | upgrade http next granted =>
      obtain ⟨rfl, rfl⟩ := List.cons.inj (hhttp.symm.trans next)
      obtain ⟨rfl, hrest⟩ := Prod.mk.inj (Option.some.inj (hgranted.symm.trans granted))
      obtain ⟨rfl, rfl⟩ := Prod.mk.inj hrest
      refine .intro keepalives [] .init hkeepalives (by rw [List.append_nil]) rfl rfl rfl
        BinServer.Parser.inv_init rfl ?_ BinServer.framing.stuck_size_nil.mapOut ?_ ?_ ?_
      · have hnil : ([] : List (Option BinServer.Request)) ++ (o.conn.performRecv lib rs now).1.customRequests = [] :=
          hcustom
        rw [hnil]
        exact Machine.Runs.refl
      · rw [h.dispatched]
        rfl
      · intro a ha
        have heq : a = (0, .custom BinClient.handshakeMessage) := by
          rw [h.answers, h.dispatched] at ha
          exact List.mem_singleton.mp ha
        rw [heq]
        exact ⟨BinClient.handshakeMessage, rfl, rfl⟩
      · exact ⟨(o.dispatched, .custom BinClient.handshakeMessage), List.mem_append_right _ (List.mem_singleton_self _),
          h.dispatched⟩
  | http http next plain replies =>
      obtain ⟨rfl, -⟩ := List.cons.inj (hhttp.symm.trans next)
      exact absurd (hgranted.symm.trans plain) (by simp)
  | custom free next known replies => exact absurd (hcustom.symm.trans next) (by simp)
  | unknown free next unknown => exact absurd (hcustom.symm.trans next) (by simp)

namespace Exchange

variable {i : Nat} {x x' : Exchange PS BinServer.Parser (Option BinServer.Request)} {t : Server PS BinServer.Parser
  (Option BinServer.Request)} {input : Server.Input}

/-! ## The invariant -/

/-- Where the connection is: nothing has been read; or the upgrade request was read, and the connection taken
    out of the table before it was dispatched; or it is upgraded. -/
inductive Serving (pb : BinClient.Protobuf) (lib : Library PS BinServer.Parser (Option BinServer.Request))
    (answer : Nat → Option BinServer.Request → Bytes) (i : Nat)
    (x : Exchange PS BinServer.Parser (Option BinServer.Request)) : Prop where
  | fresh (stage : Fresh lib (x.server.objects i)) (fed : x.fed = []) (handed : x.handed = [])
  | lost (keepalives : Bytes) (ignored : ∀ b ∈ keepalives, b = keepaliveByte) (here : i < x.server.allocated)
      (gone : ¬ x.server.InTable i) (fed : x.fed = BinClient.upgradeRequest ++ keepalives) (handed : x.handed = [])
      (queue : (x.server.conn i).customRequests = []) (dispatched : (x.server.objects i).dispatched = 0)
      (answers : (x.server.objects i).answers = [])
  | upgraded (here : i < x.server.allocated)
      (stage : Upgraded pb answer (x.server.objects i) x.fed x.handed)

/-- The invariant of an exchange. -/
structure Inv (pb : BinClient.Protobuf) (lib : Library PS BinServer.Parser (Option BinServer.Request))
    (answer : Nat → Option BinServer.Request → Bytes) (i : Nat)
    (x : Exchange PS BinServer.Parser (Option BinServer.Request)) : Prop where
  fine : Server.Fine (fun _ => False) x.server
  spare : x.server.allocated ≤ i → Server.Spare lib x.server i
  verbatim : Object.Verbatim (x.server.objects i)
  serving : Serving pb lib answer i x

theorem step_eq_some (h : x.step lib i input = some x') : ∃ t, x.server.step lib input = some t ∧
    x' = ⟨t, x.fed ++ bytesRead i x.server input, x.handed ++ (queue lib i x.server input).take
      ((queue lib i x.server input).length - (t.conn i).customRequests.length)⟩ := by
  obtain ⟨t, ht, rfl⟩ := Option.map_eq_some_iff.mp h
  exact ⟨t, ht, rfl⟩

/-- An input about another connection reads nothing here. -/
theorem bytesRead_of_ne (h : x.server.subject input ≠ some i) : bytesRead i x.server input = [] := by
  unfold bytesRead
  split
  · exact if_neg h
  · rfl

theorem queue_of_ne (h : x.server.subject input ≠ some i) :
    queue lib i x.server input = (x.server.conn i).customRequests := by
  unfold queue
  split
  · exact if_neg h
  · rfl

/-- Where nothing leaves the queue, nothing is taken from it. -/
theorem take_of_queue_eq {CR : Type} {q q' : List CR} (h : q' = q) : q.take (q.length - q'.length) = [] := by
  rw [h, Nat.sub_self, List.take_zero]

theorem bytesRead_read {rs : List RecvResult} {now : Nat} {out : HandlerOutcome} {s : Server PS BinServer.Parser
    (Option BinServer.Request)} (h : s.subject (.read rs now out) = some i) :
    bytesRead i s (.read rs now out) = (HttpConnection.recvLoop [] rs).getD [] :=
  if_pos h

theorem queue_read {rs : List RecvResult} {now : Nat} {out : HandlerOutcome} {s : Server PS BinServer.Parser
    (Option BinServer.Request)} (h : s.subject (.read rs now out) = some i) :
    queue lib i s (.read rs now out) = ((s.conn i).performRecv lib rs now).1.customRequests :=
  if_pos h

/-- The stream that follows the upgrade request is one of frames within the limit, cut off anywhere. -/
def Framed (pb : BinClient.Protobuf) (bytes : Bytes) : Prop :=
  (requests pb).Stays Framing.Alive .size (bytes.drop BinClient.upgradeRequest.length)

/-- The exchange after an input. -/
abbrev after (lib : Library PS BinServer.Parser (Option BinServer.Request)) (i : Nat)
    (x : Exchange PS BinServer.Parser (Option BinServer.Request)) (input : Server.Input)
    (t : Server PS BinServer.Parser (Option BinServer.Request)) :
    Exchange PS BinServer.Parser (Option BinServer.Request) :=
  ⟨t, x.fed ++ bytesRead i x.server input, x.handed ++ (queue lib i x.server input).take
    ((queue lib i x.server input).length - (t.conn i).customRequests.length)⟩

/-- An input that reads nothing here and takes nothing from the queue. -/
theorem after_eq (hread : bytesRead i x.server input = [])
    (hqueue : (t.conn i).customRequests = queue lib i x.server input) :
    after lib i x input t = ⟨t, x.fed, x.handed⟩ := by
  rw [after, hread, take_of_queue_eq hqueue, List.append_nil, List.append_nil]

/-- **Before the upgrade**, a step leaves the connection as it is, or reads the upgrade request. -/
theorem serving_of_fresh (hlib : Speaks pb lib) (stage : Fresh lib (x.server.objects i)) (fed : x.fed = [])
    (handed : x.handed = []) (hupgrades : Upgrades i x input) (hle : x.server.allocated ≤ t.allocated)
    (hchange : Server.Change lib x.server i input t) : Serving pb lib answer i (after lib i x input t) := by
  have hqueue : (x.server.conn i).customRequests = [] := congrArg Intake.customRequests stage.intake
  have hfresh : ∀ o, t.objects i = o → Fresh lib o → bytesRead i x.server input = [] →
      queue lib i x.server input = [] → Serving pb lib answer i (after lib i x input t) := by
    intro o ht ho hread hnone
    have hcustom : (t.conn i).customRequests = [] := by
      rw [Server.conn, ht]
      exact congrArg Intake.customRequests ho.intake
    rw [after_eq hread (hcustom.trans hnone.symm)]
    exact .fresh (ht ▸ ho) fed handed
  -- what a read makes of the connection
  have hread : ∀ {rs : List RecvResult} {now : Nat} {out : HandlerOutcome}, input = .read rs now out →
      x.server.subject input = some i →
      (bytesRead i x.server input = [] ∧ Fresh lib { x.server.objects i with
          conn := ((x.server.conn i).performRecv lib rs now).1 } ∧ queue lib i x.server input = []) ∨
        ∃ keepalives : Bytes, (∀ b ∈ keepalives, b = keepaliveByte) ∧
          bytesRead i x.server input = BinClient.upgradeRequest ++ keepalives ∧
          HttpConnection.recvLoop [] rs = some (BinClient.upgradeRequest ++ keepalives) ∧
          queue lib i x.server input = [] := by
    rintro rs now out rfl hsubject
    have hbytes := bytesRead_read hsubject
    have hwaiting : queue lib i x.server (.read rs now out) = _ := queue_read hsubject
    by_cases hnil : bytesRead i x.server (.read rs now out) = []
    · have ho := stage.performRecv now (hbytes ▸ hnil)
      refine Or.inl ⟨hnil, ho, hwaiting.trans ?_⟩
      exact congrArg Intake.customRequests ho.intake
    · obtain ⟨keepalives, hkeepalives, hall⟩ := hupgrades fed hnil
      have hloop : HttpConnection.recvLoop [] rs = some (BinClient.upgradeRequest ++ keepalives) := by
        rw [hbytes] at hall hnil
        cases hr : HttpConnection.recvLoop [] rs with
        | none =>
            rw [hr] at hnil
            exact absurd rfl hnil
        | some readbf =>
            rw [hr] at hall
            exact congrArg some hall
      obtain ⟨-, hnone, -⟩ := stage.request hlib now hkeepalives hloop
      exact Or.inr ⟨keepalives, hkeepalives, hall, hloop, hwaiting.trans hnone⟩
  cases hchange with
  | same other h => exact hfresh _ h stage (bytesRead_of_ne other) ((queue_of_ne other).trans hqueue)
  | accepted socks sock now accepts free here h =>
      subst accepts
      exact hfresh _ h ⟨rfl, rfl, rfl, rfl⟩ rfl hqueue
  | lost rs now out reads subject here held gone h =>
      rcases hread reads subject with ⟨hnil, ho, hnone⟩ | ⟨keepalives, hkeepalives, hall, hloop, hnone⟩
      · exact hfresh _ h ho hnil hnone
      · obtain ⟨-, hcustom, -⟩ := stage.request hlib now hkeepalives hloop
        refine .lost keepalives hkeepalives (Nat.lt_of_lt_of_le here hle) gone ?_ ?_ ?_ ?_ ?_
        · show x.fed ++ bytesRead i x.server input = _
          rw [fed, hall, List.nil_append]
        · show x.handed ++ _ = _
          rw [hnone, handed, List.take_nil, List.append_nil]
        · rw [Server.conn, h]
          exact hcustom
        · rw [h]
          exact stage.dispatched
        · rw [h]
          exact stage.answers
  | read rs now out reads subject here held returns h =>
      rcases hread reads subject with ⟨hnil, ho, hnone⟩ | ⟨keepalives, hkeepalives, hall, hloop, hnone⟩
      · exact hfresh _ (ho.dispatched_eq h) ho hnil hnone
      · refine .upgraded (Nat.lt_of_lt_of_le here hle) ?_
        have heq : after lib i x input t = ⟨t, BinClient.upgradeRequest ++ keepalives, []⟩ := by
          rw [after, fed, handed, hall, hnone, List.take_nil, List.append_nil, List.nil_append]
        rw [heq]
        exact stage.upgraded hlib now hkeepalives hloop h
  | written r now writes subject here h =>
      subst writes
      refine hfresh _ h (stage.of_intake (HttpConnection.intake_performSend r now _) ?_ rfl rfl) rfl hqueue
      exact (HttpConnection.performSend_same r now (x.server.conn i)).waiting.trans stage.free
  | drained r now out drains q front here queued c bytes intake free sent verbatim h =>
      exact absurd stage.answers queued
  | answered k r answers pending h =>
      exact absurd pending.2.1 (by rw [stage.dispatched]; exact Nat.not_lt_zero k)

/-- **An upgraded connection** stays upgraded: its parser goes on, and its handler is given the requests. -/
theorem serving_of_upgraded (hlib : Speaks pb lib) (here : i < x.server.allocated)
    (stage : Upgraded pb answer (x.server.objects i) x.fed x.handed) (hhonest : Honest lib answer i x input)
    (hframed : Framed pb (x.fed ++ bytesRead i x.server input)) (hle : x.server.allocated ≤ t.allocated)
    (hchange : Server.Change lib x.server i input t) : Serving pb lib answer i (after lib i x input t) := by
  have hthere : i < t.allocated := Nat.lt_of_lt_of_le here hle
  have hsame : ∀ o, t.objects i = o → Upgraded pb answer o x.fed x.handed → bytesRead i x.server input = [] →
      (t.conn i).customRequests = queue lib i x.server input → Serving pb lib answer i (after lib i x input t) := by
    intro o ht ho hread hqueue
    rw [after_eq hread hqueue]
    exact .upgraded hthere (ht ▸ ho)
  cases hchange with
  | same other h =>
      refine hsame _ h stage (bytesRead_of_ne other) ?_
      rw [queue_of_ne other]
      exact congrArg (fun o => o.conn.customRequests) h
  | accepted socks sock now accepts free here' h => exact absurd here (Nat.not_lt.mpr free)
  | lost rs now out reads subject here held gone h =>
      subst reads
      have hbytes := bytesRead_read subject
      rw [hbytes] at hframed
      have ho := stage.performRecv hlib rs now hframed
      have hqueue : (t.conn i).customRequests = queue lib i x.server (.read rs now out) := by
        rw [queue_read subject]
        exact congrArg (fun o => o.conn.customRequests) h
      refine .upgraded hthere ?_
      rw [after, take_of_queue_eq hqueue, hbytes, List.append_nil]
      exact h ▸ ho
  | read rs now out reads subject here held returns h =>
      subst reads
      have hbytes := bytesRead_read subject
      rw [hbytes] at hframed
      have ho := (stage.performRecv hlib rs now hframed).dispatched hlib h (by
        have hreplies := hhonest subject
        rw [queue_read subject] at hreplies
        exact hreplies)
      refine .upgraded hthere ?_
      rw [after, hbytes, queue_read subject]
      exact ho
  | written r now writes subject here h =>
      subst writes
      have hintake := HttpConnection.intake_performSend r now (x.server.conn i)
      refine hsame _ h (stage.of_intake hintake rfl rfl) rfl ?_
      rw [Server.conn, h]
      exact congrArg Intake.customRequests hintake
  | drained r now out drains q front here queued c bytes intake free sent verbatim h =>
      subst drains
      have ho : Upgraded pb answer
          { x.server.objects i with conn := c, added := (x.server.objects i).added ++ [(q, bytes)] } x.fed x.handed :=
        stage.of_intake intake rfl rfl
      have hcustom : c.customRequests = (x.server.conn i).customRequests := congrArg Intake.customRequests intake
      rcases h with h | h
      · refine hsame _ h ho rfl ?_
        rw [Server.conn, h]
        exact hcustom
      · have hnext := ho.dispatched hlib h (by
          have hqueue : queue lib i x.server (.drain r now out) = c.customRequests := hcustom.symm
          have hreplies := hhonest (show x.server.front.map Prod.fst = some i by rw [front]; rfl)
          rw [hqueue] at hreplies
          exact hreplies)
        refine .upgraded hthere ?_
        have heq : after lib i x (.drain r now out) t = ⟨t, x.fed, x.handed ++ c.customRequests.take
            (c.customRequests.length - (t.conn i).customRequests.length)⟩ := by
          rw [hcustom, after]
          exact congrArg (Exchange.mk t · _) (List.append_nil x.fed)
        rw [heq]
        exact hnext
  | answered k r answers pending h =>
      subst answers
      have hqueue : (t.conn i).customRequests = (x.server.conn i).customRequests :=
        congrArg (fun o => o.conn.customRequests) h
      refine hsame _ h ?_ rfl hqueue
      obtain ⟨keepalives, stream, p, ignored, split, mode, protocol, parser, inv, taken, runs, stuck, count,
        answering, greeted⟩ := stage
      obtain ⟨-, hlt, hopen⟩ := pending
      -- the first request was the upgrade, which has its answer
      obtain ⟨n, rfl⟩ : ∃ n, k = n + 1 := by
        obtain ⟨a, ha, hzero⟩ := greeted
        refine Nat.exists_eq_succ_of_ne_zero fun hk => hopen a ha ?_
        rw [hzero, hk]
      rw [count] at hlt
      have hn : n < x.handed.length := Nat.lt_of_succ_lt_succ hlt
      have hreply := hhonest rfl n _ rfl (List.getElem?_eq_getElem hn)
      have hscript : (script answer x.handed)[n + 1]? = some (frame (answer n x.handed[n])) := by
        simp [script, hn]
      have hgiven : ∀ r' ∈ [r], r' = .custom (frame (answer n x.handed[n])) := by
        intro r' hr'
        rw [List.mem_singleton.mp hr', hreply]
      have hmore := answering.append hscript hgiven
      refine .intro keepalives stream p ignored split mode protocol parser inv taken runs stuck count hmore ?_
      obtain ⟨a, ha, hzero⟩ := greeted
      exact ⟨a, List.mem_append_left _ ha, hzero⟩

/-- **A connection that was lost** before its upgrade is not read again, and nothing is queued for it. -/
theorem serving_of_lost {keepalives : Bytes} (ignored : ∀ b ∈ keepalives, b = keepaliveByte)
    (here : i < x.server.allocated) (gone : ¬ x.server.InTable i)
    (fed : x.fed = BinClient.upgradeRequest ++ keepalives) (handed : x.handed = [])
    (queue : (x.server.conn i).customRequests = []) (dispatched : (x.server.objects i).dispatched = 0)
    (answers : (x.server.objects i).answers = []) (hstep : x.server.step lib input = some t)
    (hchange : Server.Change lib x.server i input t) : Serving pb lib answer i (after lib i x input t) := by
  have hthere : i < t.allocated := Nat.lt_of_lt_of_le here (Server.table_of_step hstep).1
  have hgone : ¬ t.InTable i := fun hin => gone (Server.inTable_of_step hstep here hin)
  have hsame : ∀ c, t.objects i = { x.server.objects i with conn := c } →
      c.customRequests = (x.server.conn i).customRequests → bytesRead i x.server input = [] →
      Exchange.queue lib i x.server input = (x.server.conn i).customRequests →
      Serving pb lib answer i (after lib i x input t) := by
    intro c ht hc hread hqueue
    have hcustom : (t.conn i).customRequests = (x.server.conn i).customRequests := by
      rw [Server.conn, ht]
      exact hc
    rw [after_eq hread (hcustom.trans hqueue.symm)]
    exact .lost keepalives ignored hthere hgone fed handed (hcustom.trans queue) (by rw [ht]; exact dispatched)
      (by rw [ht]; exact answers)
  cases hchange with
  | same other h => exact hsame _ h rfl (bytesRead_of_ne other) (queue_of_ne other)
  | accepted socks sock now accepts free here' h => exact absurd here (Nat.not_lt.mpr free)
  | lost rs now out reads subject here held gone' h => exact absurd held gone
  | read rs now out reads subject here held returns h => exact absurd held gone
  | written r now writes subject here h =>
      subst writes
      exact hsame _ h (congrArg Intake.customRequests (HttpConnection.intake_performSend r now _)) rfl rfl
  | drained r now out drains q front here queued c bytes intake free sent verbatim h => exact absurd answers queued
  | answered k r hanswers pending h =>
      exact absurd pending.2.1 (by rw [dispatched]; exact Nat.not_lt_zero k)

/-- **Every step keeps the invariant.** -/
theorem Inv.step (hlib : Speaks pb lib) (h : Inv pb lib answer i x) (hallowed : Allowed lib answer i x input)
    (hframed : Framed pb (x.fed ++ bytesRead i x.server input)) (hstep : x.step lib i input = some x') :
    Inv pb lib answer i x' := by
  obtain ⟨t, ht, rfl⟩ := step_eq_some hstep
  have hchange := Server.change_of_step h.fine ht i
  have hle := (Server.table_of_step ht).1
  refine ⟨h.fine.step hallowed.server ht, hchange.spare hle h.spare, hchange.verbatim h.verbatim, ?_⟩
  cases h.serving with
  | fresh stage fed handed => exact serving_of_fresh hlib stage fed handed hallowed.upgrades hle hchange
  | lost keepalives ignored here gone fed handed queue dispatched answers =>
      exact serving_of_lost ignored here gone fed handed queue dispatched answers ht hchange
  | upgraded here stage => exact serving_of_upgraded hlib here stage hallowed.honest hframed hle hchange

theorem Inv.init (listenSock i : Nat) : Inv pb lib answer i (Exchange.init lib listenSock) := by
  refine ⟨(Server.Strong.init lib listenSock).fine, fun _ => rfl, ?_, .fresh ⟨rfl, rfl, rfl, rfl⟩ rfl rfl⟩
  exact fun b bytes hmem => absurd hmem List.not_mem_nil

/-! ## What it says -/

theorem Inv.answering (h : Inv pb lib answer i x) : Answering answer x.handed (x.server.objects i).answers := by
  have hnone : (x.server.objects i).answers = [] → Answering answer x.handed (x.server.objects i).answers := by
    intro hnil a ha
    rw [hnil] at ha
    exact absurd ha List.not_mem_nil
  cases h.serving with
  | fresh stage fed handed => exact hnone stage.answers
  | lost keepalives ignored here gone fed handed queue dispatched answers => exact hnone answers
  | upgraded here stage =>
      obtain ⟨-, -, -, -, -, -, -, -, -, -, -, -, -, answering, -⟩ := stage
      exact answering

/-- **The responses queued are a beginning of the script.** -/
theorem Inv.added_prefix (h : Inv pb lib answer i x) (hi : i < x.server.allocated) :
    (x.server.objects i).added.map Prod.snd <+: script answer x.handed := by
  have hsound := h.fine.safe.sound hi
  rw [List.prefix_iff_getElem?]
  intro k hk
  rw [List.length_map] at hk
  have hpaired := hsound.paired (j := k) (r := ((x.server.objects i).added[k]).1) (by simp [hk])
  obtain ⟨expected, hscript, hreply⟩ := h.answering _ hpaired
  have hmem : (Reply.custom expected, ((x.server.objects i).added[k]).2) ∈ (x.server.objects i).added := by
    rw [← hreply]
    exact List.getElem_mem hk
  rw [hscript, List.getElem_map, h.verbatim _ _ hmem]

/-- **What the peer has got is a beginning of the script.** -/
theorem Inv.accepted_prefix (h : Inv pb lib answer i x) :
    (x.server.conn i).accepted <+: (script answer x.handed).flatten := by
  by_cases hi : i < x.server.allocated
  · obtain ⟨rest, hrest⟩ := h.added_prefix hi
    have hsound := h.fine.safe.sound hi
    have hout : (x.server.conn i).accepted <+: (x.server.conn i).output := by
      unfold HttpConnection.output
      rw [List.append_assoc]
      exact List.prefix_append _ _
    have houtput : (x.server.conn i).output = ((x.server.objects i).added.map Prod.snd).flatten := hsound.output
    rw [houtput] at hout
    rw [← hrest, List.flatten_append]
    exact hout.trans (List.prefix_append _ _)
  · have hspare : (x.server.conn i).accepted = [] :=
      congrArg (fun o => o.conn.accepted) (h.spare (Nat.le_of_not_lt hi))
    rw [hspare]
    exact List.nil_prefix

/-- The requests taken and those waiting are the ones the bytes read hold. -/
theorem Inv.carried (h : Inv pb lib answer i x) : ∃ t c, (requests pb).Runs .size
    (x.fed.drop BinClient.upgradeRequest.length) (x.handed ++ (x.server.conn i).customRequests) t c := by
  cases h.serving with
  | fresh stage fed handed =>
      have hqueue : (x.server.conn i).customRequests = [] := congrArg Intake.customRequests stage.intake
      rw [fed, handed, hqueue, List.drop_nil]
      exact ⟨_, _, Machine.Runs.refl⟩
  | lost keepalives ignored here gone fed handed queue dispatched answers =>
      rw [fed, handed, queue, List.drop_left, ← List.append_nil keepalives]
      exact ⟨_, _, runs_keepalives pb ignored []⟩
  | upgraded here stage =>
      obtain ⟨keepalives, stream, p, ignored, split, -, -, -, -, -, runs, -⟩ := stage
      rw [split, List.drop_left]
      exact ⟨_, _, (runs_keepalives pb ignored stream).trans runs⟩

/-! ## Runs -/

/-- The requests among the items of a client's stream. -/
def requestsOf (pb : BinClient.Protobuf) (items : List Framing.Item) : List (Option BinServer.Request) :=
  (Framing.messages items).map fun dump => some (BinServer.Request.ofDump pb dump)

theorem runs_requestsOf {items : List Framing.Item} (hfits : ∀ item ∈ items, BinServer.framing.Fits item) :
    (requests pb).Runs .size (Framing.encodeItems items) (requestsOf pb items) .size [] := by
  have hruns := Framing.runs_items BinServer.framing_readsNumerals items hfits []
  rw [List.append_nil] at hruns
  exact hruns.mapOut

/-- The bytes behind the upgrade request. -/
theorem drop_prefix_of_prefix {bytes stream : Bytes} (h : bytes <+: BinClient.upgradeRequest ++ stream) :
    bytes.drop BinClient.upgradeRequest.length <+: stream := by
  have hdrop := h.drop BinClient.upgradeRequest.length
  rwa [List.drop_left] at hdrop

/-- A part of a client's stream consists of frames within the limit. -/
theorem framed_of_stream {items : List Framing.Item} (hfits : ∀ item ∈ items, BinServer.framing.Fits item)
    {bytes : Bytes} (h : bytes <+: BinClient.upgradeRequest ++ Framing.encodeItems items) : Framed pb bytes := by
  obtain ⟨rest, hrest⟩ := drop_prefix_of_prefix h
  have hruns : (requests pb).Runs .size _ (requestsOf pb items) .size [] := runs_requestsOf hfits
  have hstays := hruns.stays (BinServer.requests_dead pb) BinServer.framing.stuck_size_nil.mapOut
    (show Framing.Alive .size by simp [Framing.Alive])
  rw [← hrest] at hstays
  exact hstays.of_append

/-- The requests taken and those waiting are the first of a stream that has been read in part. -/
theorem Inv.taken_prefix (h : Inv pb lib answer i x) {items : List Framing.Item}
    (hfits : ∀ item ∈ items, BinServer.framing.Fits item)
    (hfed : x.fed <+: BinClient.upgradeRequest ++ Framing.encodeItems items) :
    x.handed ++ (x.server.conn i).customRequests <+: requestsOf pb items := by
  obtain ⟨rest, hrest⟩ := drop_prefix_of_prefix hfed
  obtain ⟨t, c, hruns⟩ := h.carried
  have hall := hruns.append_input rest
  rw [hrest] at hall
  obtain ⟨os, hos, -⟩ := hall.extend (runs_requestsOf hfits) BinServer.framing.stuck_size_nil.mapOut
  rw [hos]
  exact List.prefix_append _ _

/-- **A client gets the answers to the requests it sends, in their order, and nothing else.** Whatever else
    the server does, however the bytes of the client arrive and whenever the handlers answer: in every state
    of a run in which the connection at `i` is read a stream of frames and keep-alive bytes behind the upgrade
    request, the requests taken for the handler and those waiting are the first of the stream, and what the
    socket has taken begins the handshake followed by the framed answers to the requests of the stream. -/
theorem answers_of_stream (hlib : Speaks pb lib) (listenSock : Nat) {items : List Framing.Item}
    (hfits : ∀ item ∈ items, BinServer.framing.Fits item) {inputs : List Server.Input}
    (hallowed : Along (Exchange.step lib i) (fun x input => Allowed lib answer i x input ∧
      x.fed ++ bytesRead i x.server input <+: BinClient.upgradeRequest ++ Framing.encodeItems items)
      (Exchange.init lib listenSock) inputs)
    (hrun : (Exchange.init lib listenSock).run lib i inputs = some x) :
    x.handed ++ (x.server.conn i).customRequests <+: requestsOf pb items ∧
      (x.server.conn i).accepted <+: (script answer (requestsOf pb items)).flatten := by
  let P := fun x : Exchange PS BinServer.Parser (Option BinServer.Request) =>
    Inv pb lib answer i x ∧ x.fed <+: BinClient.upgradeRequest ++ Framing.encodeItems items
  obtain ⟨hinv, hfed⟩ : P x := by
    apply hallowed.invariant P _ ⟨Inv.init listenSock i, List.nil_prefix⟩ hrun
    rintro x input x' ⟨hinv, -⟩ ⟨hinput, hstream⟩ hstep
    obtain ⟨t, -, rfl⟩ := step_eq_some hstep
    exact ⟨hinv.step hlib hinput (framed_of_stream hfits hstream) hstep, hstream⟩
  have htaken := hinv.taken_prefix hfits hfed
  refine ⟨htaken, hinv.accepted_prefix.trans ?_⟩
  obtain ⟨more, hmore⟩ := (List.prefix_append _ _).trans htaken
  obtain ⟨rest, hrest⟩ := script_prefix answer x.handed more
  rw [← hmore, ← hrest, List.flatten_append]
  exact List.prefix_append _ _

/-! ### One call -/

/-- What is promised, in a form that can be computed: connections are accepted at the beginning, handlers
    answer at once, to requests just read, and the upgrade request comes alone. -/
def checked (lib : Library PS BinServer.Parser (Option BinServer.Request))
    (answer : Nat → Option BinServer.Request → Bytes) (i : Nat)
    (x : Exchange PS BinServer.Parser (Option BinServer.Request)) : Server.Input → Bool
  | .poll batch => decide { x.server with phase := .events batch }.reads.Nodup
  | .read rs now out =>
      decide (out.replies.length ≤ 1) && !out.throws &&
      (queue lib i x.server (.read rs now out)).head?.all (fun request =>
        out.replies.all (· = .custom (frame (answer x.handed.length request)))) &&
      (!x.fed.isEmpty || (bytesRead i x.server (.read rs now out)).isEmpty ||
        decide (bytesRead i x.server (.read rs now out) = BinClient.upgradeRequest))
  | .drain _ _ out => out.replies.isEmpty && !out.throws
  | .accept socks _ =>
      decide socks.Nodup && x.server.readingConnections.isEmpty && x.server.respQueue.isEmpty &&
        x.server.customRespQueue.isEmpty && x.server.allocated == 0
  | .answer _ _ _ => false
  | _ => true

theorem bytesRead_of_checked {input : Server.Input} (h : checked lib answer i x input = true) :
    x.fed = [] → bytesRead i x.server input = [] ∨ bytesRead i x.server input = BinClient.upgradeRequest := by
  intro hfed
  cases input with
  | read rs now out =>
      simp only [checked, hfed, Bool.and_eq_true, Bool.or_eq_true, List.isEmpty_iff, decide_eq_true_eq] at h
      simpa using h.2
  | _ => exact Or.inl rfl

theorem allowed_of_checked {input : Server.Input} (h : checked lib answer i x input = true) :
    Allowed lib answer i x input := by
  refine ⟨?_, ?_, ?_⟩
  · cases input with
    | poll batch =>
        rw [checked, decide_eq_true_eq] at h
        exact h
    | read rs now out =>
        simp only [checked, Bool.and_eq_true, decide_eq_true_eq, Bool.not_eq_true'] at h
        exact ⟨h.1.1.1, h.1.1.2⟩
    | drain r now out =>
        simp only [checked, Bool.and_eq_true, List.isEmpty_iff, Bool.not_eq_true'] at h
        exact ⟨by simp [h.1], h.2⟩
    | accept socks now =>
        simp only [checked, Bool.and_eq_true, decide_eq_true_eq, List.isEmpty_iff, beq_iff_eq,
          Std.ExtTreeMap.isEmpty_iff] at h
        obtain ⟨⟨⟨⟨hnodup, htable⟩, hresp⟩, hcustom⟩, hnone⟩ := h
        refine ⟨hnodup, ?_⟩
        rintro sock - j (htaken | hqueued | ⟨k, hpending, -⟩)
        · rw [Server.InTable, htable] at htaken
          exact absurd htaken (by simp)
        · exact absurd hqueued (by simp [Server.entries, hresp, hcustom])
        · exact absurd hpending (by simp [hnone])
    | _ => trivial
  · cases input with
    | read rs now out =>
        simp only [checked, Bool.and_eq_true, Option.all_eq_true, List.all_eq_true, decide_eq_true_eq] at h
        intro _ request hrequest r hr
        exact h.1.2 request hrequest r hr
    | drain r now out =>
        simp only [checked, Bool.and_eq_true, List.isEmpty_iff, Bool.not_eq_true'] at h
        intro _ request _ r hr
        exact absurd hr (by simp [h.1])
    | answer j k r => exact absurd h (by simp [checked])
    | _ => trivial
  · intro hfed hread
    refine ⟨[], fun b hb => absurd hb List.not_mem_nil, ?_⟩
    rw [List.append_nil]
    exact (bytesRead_of_checked h hfed).resolve_left hread

end Exchange

/-- What `http_parser` calls for a client's upgrade request. -/
def upgradeCallbacks (readbf : Bytes) : List Callback :=
  [.messageBegin, .url (readbf.drop 4) 1, .headersField (ascii "Host"), .headersValue (ascii "hiapi"),
    .headersField (ascii "Connection"), .headersValue (ascii "keep-alive"), .headersField (ascii "Upgrade"),
    .headersValue (ascii "hiapi"), .headersComplete true, .messageComplete]

/-- A server that speaks the protocol with clients that send nothing else. -/
def hiapiLibrary : Library Unit BinServer.Parser (Option BinServer.Request) where
  curlUnescape := id
  httpParserInit := ()
  httpParserExecute := fun _ readbf =>
    ((), if BinClient.upgradeRequest.isPrefixOf readbf then upgradeCallbacks readbf else [])
  customParser := customParser BinClient.shortWire fun _ => 7
  respInfo := ⟨ascii "text/html", ascii "hiapi"⟩
  customProtocols := fun protocol =>
    if protocol = ascii "hiapi" then some ⟨fun _ => some .init, BinClient.handshakeMessage⟩ else none

theorem hiapiLibrary_speaks : Speaks BinClient.shortWire hiapiLibrary where
  parser := ⟨_, rfl⟩
  protocol := by simp [hiapiLibrary]
  upgrade := by
    intro keepalives _
    have hprefix : BinClient.upgradeRequest.isPrefixOf (BinClient.upgradeRequest ++ keepalives) = true :=
      List.isPrefixOf_iff_prefix.mpr (List.prefix_append _ _)
    have hcalls : (hiapiLibrary.httpParserExecute hiapiLibrary.httpParserInit
        (BinClient.upgradeRequest ++ keepalives)).2 =
        upgradeCallbacks (BinClient.upgradeRequest ++ keepalives) := by
      simp only [hiapiLibrary, hprefix, if_true]
    rw [hcalls]
    refine ⟨rfl, ?_⟩
    have hheaders : ((HttpConnection.new hiapiLibrary 0 0).assembly.callbacks hiapiLibrary.curlUnescape
        (upgradeCallbacks (BinClient.upgradeRequest ++ keepalives))).curHttpRequest.headers =
        (((∅ : StrMap).insertIfNew (ascii "Host") (ascii "hiapi")).insertIfNew (ascii "Connection")
          (ascii "keep-alive")).insertIfNew (ascii "Upgrade") (ascii "hiapi") := rfl
    rw [hheaders]
    decide +kernel

namespace Exchange

/-- The bytes of one call. -/
def oneItem : List Framing.Item := [.message (BinClient.buildRequest BinClient.shortWire BinClient.pingCall)]

/-- A client connects, upgrades the connection, and calls; the handler answers at once, and the socket takes a
    part of the response. -/
def oneCall : List Server.Input :=
  [.poll [.accept], .accept [5] 0, .lock, .finish 0, .poll [.read 5],
    .read [.data BinClient.upgradeRequest, .again] 0 ⟨[], false⟩, .lock, .drain (.accepted 999) 0 ⟨[], false⟩,
    .finish 0, .poll [.read 5],
    .read [.data (Framing.encodeItems oneItem), .again] 0 ⟨[.custom (frame (ascii "pong"))], false⟩, .lock,
    .drain (.accepted 2) 0 ⟨[], false⟩]

/-- The handler of that run. -/
def pong (_ : Nat) (_ : Option BinServer.Request) : Bytes := ascii "pong"

set_option maxRecDepth 10000 in
theorem oneCall_runs : ((init hiapiLibrary 3).run hiapiLibrary 0 oneCall).isSome = true := by decide +kernel

theorem oneCall_answered :
    ∃ x, (init hiapiLibrary 3).run hiapiLibrary 0 oneCall = some x ∧ x.handed.length = 1 ∧
      (x.server.conn 0).accepted.length = BinClient.handshakeMessage.length + 3 ∧
      (x.server.conn 0).accepted <+: (script pong (requestsOf BinClient.shortWire oneItem)).flatten := by
  have hfits : ∀ item ∈ oneItem, BinServer.framing.Fits item := by
    intro item hitem
    obtain rfl := List.mem_singleton.mp hitem
    show (BinClient.buildRequest BinClient.shortWire BinClient.pingCall).length ≤ BinServer.binrequestMaxSize
    decide +kernel
  let P := fun (x : Exchange Unit BinServer.Parser (Option BinServer.Request)) input =>
    Allowed hiapiLibrary pong 0 x input ∧
      x.fed ++ bytesRead 0 x.server input <+: BinClient.upgradeRequest ++ Framing.encodeItems oneItem
  have hallowed : Along (step hiapiLibrary 0) P (init hiapiLibrary 3) oneCall := by
    have hchecked : Along (step hiapiLibrary 0) (fun x input => checked hiapiLibrary pong 0 x input = true ∧
        x.fed ++ bytesRead 0 x.server input <+: BinClient.upgradeRequest ++ Framing.encodeItems oneItem)
        (init hiapiLibrary 3) oneCall := by decide +kernel
    exact hchecked.imp fun x input h => ⟨allowed_of_checked h.1, h.2⟩
  refine ⟨_, (Option.some_get oneCall_runs).symm, by decide +kernel, by decide +kernel, ?_⟩
  exact (answers_of_stream hiapiLibrary_speaks 3 hfits hallowed (Option.some_get oneCall_runs).symm).2

end Exchange

end Hiapi
end Hiaux
