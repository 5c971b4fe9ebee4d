import Hiaux.HttpServer.Correctness.Answers
import Hiaux.HttpServer.Correctness.Exceptions
import Hiaux.HttpServer.Correctness.Order

/-!
# `HttpServer.Correctness.Intake` — what a step does to one connection object

Over a whole run, one connection is read, written, answered and drained in whatever order the batches and
the handlers bring, among steps that are about other connections. `Change` lists what a step can do to the
object at an address; where the dispatching of a request is part of it, `Dispatched` says which of the five
branches of `handleWaitingRequests` was taken. An invariant of one connection is kept if each of these keeps
it.
-/

namespace Hiaux
namespace HttpServer

open Lib Network

variable {PS CP CR : Type}

/-! ## The requests of a connection -/

/-- What a connection makes of the bytes it reads: its parsers, and the requests waiting. -/
structure Intake (PS CP CR : Type) where
  customProtocol : Bool
  customProtocolId : Bytes
  assembly : Assembly
  parser : PS
  customParser : Option CP
  httpRequests : List HttpRequest
  customRequests : List CR

namespace HttpConnection

/-- The intake of a connection. -/
def intake (c : HttpConnection PS CP CR) : Intake PS CP CR :=
  ⟨c.customProtocol, c.customProtocolId, c.assembly, c.parser, c.customParser, c.httpRequests, c.customRequests⟩

theorem intake_sendBuffered (r : SendResult) (now : Nat) (c : HttpConnection PS CP CR) :
    (sendBuffered r now c).1.intake = c.intake := by
  unfold sendBuffered
  cases r with
  | fatal => rfl
  | again => rfl
  | accepted n =>
      dsimp only
      split
      · rfl
      · split <;> rfl

/-- Sending does not touch the requests. -/
theorem intake_performSend (r : SendResult) (now : Nat) (c : HttpConnection PS CP CR) :
    (c.performSend r now).1.intake = c.intake := by
  unfold performSend
  split
  · split
    · rfl
    · split
      · rfl
      · exact intake_sendBuffered r now _
  · exact intake_sendBuffered r now c

theorem accepted_sendBuffered (r : SendResult) (now : Nat) (c : HttpConnection PS CP CR) :
    c.accepted <+: (sendBuffered r now c).1.accepted := by
  unfold sendBuffered
  cases r with
  | fatal => exact List.prefix_refl _
  | again => exact List.prefix_refl _
  | accepted n =>
      dsimp only
      split
      · exact List.prefix_refl _
      · split
        · exact List.prefix_append _ _
        · exact List.prefix_append _ _

/-- What the peer can see only grows. -/
theorem accepted_performSend (r : SendResult) (now : Nat) (c : HttpConnection PS CP CR) :
    c.accepted <+: (c.performSend r now).1.accepted := by
  unfold performSend
  split
  · split
    · exact List.prefix_refl _
    · split
      · exact List.prefix_refl _
      · rename_i resp rest _
        exact accepted_sendBuffered r now { c with sendBuffer := resp, resps := rest }
  · exact accepted_sendBuffered r now c

theorem accepted_performRecv (lib : Library PS CP CR) (rs : List RecvResult) (now : Nat)
    (c : HttpConnection PS CP CR) : (c.performRecv lib rs now).1.accepted = c.accepted := by
  unfold performRecv
  split
  · rfl
  · split
    · split <;> rfl
    · unfold receiveHttp
      dsimp only
      split <;> split <;> rfl

end HttpConnection

/-! ## Dispatching -/

/-- **What `handleWaitingRequests` does to the object**, one case for each of its branches. -/
inductive Dispatched (lib : Library PS CP CR) (out : HandlerOutcome) (o : Object PS CP CR) :
    Object PS CP CR → Prop where
  | idle (h : o.conn.waitingLastHandling = true ∨
      (o.conn.customRequests = [] ∧ (o.conn.customProtocol = true ∨ o.conn.httpRequests = []))) :
      Dispatched lib out o o
  | upgrade {request : HttpRequest} {rest : List HttpRequest} {protocol handshake : Bytes} {cp : CP}
      (http : o.conn.customProtocol = false) (next : o.conn.httpRequests = request :: rest)
      (granted : Server.getCustomParser lib request = some (protocol, cp, handshake)) :
      Dispatched lib out o
        { o with
          conn := { o.conn with
            httpRequests := rest, customParser := some cp, customProtocol := true, customProtocolId := protocol
            waitingLastHandling := false }
          dispatched := o.dispatched + 1
          answers := o.answers ++ [(o.dispatched, .custom handshake)] }
  | http {request : HttpRequest} {rest : List HttpRequest} {given : List Reply}
      (http : o.conn.customProtocol = false) (next : o.conn.httpRequests = request :: rest)
      (plain : Server.getCustomParser lib request = none) (replies : given <+: out.replies) :
      Dispatched lib out o
        { o with
          conn := { o.conn with httpRequests := rest, waitingLastHandling := true }
          dispatched := o.dispatched + 1
          answers := o.answers ++ given.map (fun r => (o.dispatched, r)) }
  | custom {request : CR} {rest : List CR} {given : List Reply}
      (free : o.conn.customProtocol = true ∨ o.conn.httpRequests = [])
      (next : o.conn.customRequests = request :: rest)
      (known : (lib.customProtocols o.conn.customProtocolId).isSome = true) (replies : given <+: out.replies) :
      Dispatched lib out o
        { o with
          conn := { o.conn with customRequests := rest, waitingLastHandling := true }
          dispatched := o.dispatched + 1
          answers := o.answers ++ given.map (fun r => (o.dispatched, r)) }
  | unknown {request : CR} {rest : List CR}
      (free : o.conn.customProtocol = true ∨ o.conn.httpRequests = [])
      (next : o.conn.customRequests = request :: rest)
      (unknown : (lib.customProtocols o.conn.customProtocolId).isSome = false) :
      Dispatched lib out o
        { o with conn := { o.conn with customRequests := rest, waitingLastHandling := true } }

/-- Dispatching a request sends nothing. -/
theorem Dispatched.sent {lib : Library PS CP CR} {out : HandlerOutcome} {o o' : Object PS CP CR}
    (h : Dispatched lib out o o') : o'.conn.accepted = o.conn.accepted ∧ o'.added = o.added := by
  cases h <;> exact ⟨rfl, rfl⟩

/-- The bytes of custom replies are queued as they are. -/
def Object.Verbatim (o : Object PS CP CR) : Prop := ∀ b bytes, (Reply.custom b, bytes) ∈ o.added → bytes = b

namespace Server

variable {lib : Library PS CP CR} {s t : Server PS CP CR} {i j k : Nat}

/-- A reply is recorded; it changes nothing else of its connection. -/
theorem objects_reply_self (i k : Nat) (r : Reply) (s : Server PS CP CR) :
    (s.reply i k r).objects i = { s.objects i with answers := (s.objects i).answers ++ [(k, r)] } := by
  have hanswer : (s.addAnswer i k r).objects i =
      { s.objects i with answers := (s.objects i).answers ++ [(k, r)] } := objects_modify_self _
  rcases reply_cases i k r s with ⟨-, -, heq⟩ | ⟨-, ⟨-, heq⟩ | ⟨j, -, heq⟩⟩
  · rw [heq]
    exact hanswer
  · rw [heq]
    exact hanswer
  · rw [heq]
    cases r <;> exact hanswer

theorem objects_reply_of_ne (h : j ≠ i) (k : Nat) (r : Reply) (s : Server PS CP CR) :
    (s.reply i k r).objects j = s.objects j :=
  (handled_reply i k r s).effect.others j fun hi => h (Option.some.inj hi).symm

/-- The replies of a handler are recorded up to the one that waits for the mutex. -/
theorem objects_replies_self (i k : Nat) (rs : List Reply) (s : Server PS CP CR) :
    ∃ given, given <+: rs ∧ (s.replies i k rs).objects i =
      { s.objects i with answers := (s.objects i).answers ++ given.map (fun r => (k, r)) } := by
  induction rs generalizing s with
  | nil =>
      refine ⟨[], List.prefix_refl _, ?_⟩
      rw [List.map_nil, List.append_nil]
      rfl
  | cons r rs ih =>
      have hreply := objects_reply_self i k r s
      unfold replies
      dsimp only
      split
      · exact ⟨[r], List.prefix_append [r] rs, hreply⟩
      · obtain ⟨given, hgiven, heq⟩ := ih (s.reply i k r)
        refine ⟨r :: given, List.cons_prefix_cons.mpr ⟨rfl, hgiven⟩, ?_⟩
        rw [heq, hreply, List.map_cons, List.append_assoc]
        rfl

theorem objects_runHandler_self (i k : Nat) (out : HandlerOutcome) (s : Server PS CP CR) :
    ∃ given, given <+: out.replies ∧ (s.runHandler i k out).1.objects i =
      { s.objects i with answers := (s.objects i).answers ++ given.map (fun r => (k, r)) } :=
  objects_replies_self i k out.replies s

theorem objects_setConn_self (c : HttpConnection PS CP CR) (s : Server PS CP CR) :
    (s.setConn i c).objects i = { s.objects i with conn := c } :=
  objects_modify_self _

/-- No request of `http_parser` stands before those of the custom protocol. -/
theorem free_of_no_http {c : HttpConnection PS CP CR}
    (h : ∀ (request : HttpRequest) (rest : List HttpRequest), c.customProtocol = false →
      c.httpRequests = request :: rest → False) : c.customProtocol = true ∨ c.httpRequests = [] := by
  cases hmode : c.customProtocol with
  | true => exact Or.inl rfl
  | false =>
      cases hrequests : c.httpRequests with
      | nil => exact Or.inr rfl
      | cons request rest => exact absurd hrequests (h request rest hmode)

/-- The connection after an upgrade: the new parser, the handshake recorded, and the flag cleared. -/
theorem objects_upgrade_self (k : Nat) (handshake : Bytes) (c : HttpConnection PS CP CR) (s : Server PS CP CR) :
    let t := (s.setConn i c).reply i k (.custom handshake)
    (t.setConn i { t.conn i with waitingLastHandling := false }).objects i =
      { s.objects i with
        conn := { c with waitingLastHandling := false }
        answers := (s.objects i).answers ++ [(k, .custom handshake)] } := by
  intro t
  have ht : t.objects i = { s.objects i with
      conn := c, answers := (s.objects i).answers ++ [(k, .custom handshake)] } := by
    rw [objects_reply_self, objects_setConn_self]
  rw [objects_setConn_self, conn, ht]

/-- **`handleWaitingRequests` takes one of its branches.** -/
theorem dispatched_handleWaitingRequests (lib : Library PS CP CR) (i : Nat) (out : HandlerOutcome)
    (s : Server PS CP CR) :
    Dispatched lib out (s.objects i) ((s.handleWaitingRequests lib i out).1.objects i) := by
  unfold handleWaitingRequests
  dsimp only
  split
  · rename_i hwait
    exact .idle (Or.inl hwait)
  · split
    -- an HTTP request
    · rename_i request rest hmode hnext
      split
      · rename_i protocol cp handshake hgranted
        have hdispatch := objects_dispatch_self i { s.conn i with httpRequests := rest } s
        generalize s.dispatch i { s.conn i with httpRequests := rest } = u at hdispatch ⊢
        have hconn : u.conn i = { s.conn i with httpRequests := rest, waitingLastHandling := true } :=
          congrArg Object.conn hdispatch
        rw [objects_upgrade_self, hconn, hdispatch]
        exact .upgrade hmode hnext hgranted
      · rename_i hplain
        obtain ⟨given, hgiven, heq⟩ := objects_runHandler_self i (s.objects i).dispatched out
          (s.dispatch i { s.conn i with httpRequests := rest })
        rw [heq, objects_dispatch_self]
        exact .http hmode hnext hplain hgiven
    -- a request of the custom protocol
    · rename_i request rest hnext hother
      split
      · rename_i hknown
        obtain ⟨given, hgiven, heq⟩ := objects_runHandler_self i (s.objects i).dispatched out
          (s.dispatch i { s.conn i with customRequests := rest })
        rw [heq, objects_dispatch_self]
        exact .custom (free_of_no_http hother) hnext hknown hgiven
      · rename_i hunknown
        rw [objects_setConn_self]
        exact .unknown (free_of_no_http hother) hnext (Bool.not_eq_true _ ▸ hunknown)
    -- no request at all
    · rename_i hnil hother
      exact .idle (Or.inr ⟨hnil, free_of_no_http hother⟩)

/-! ## Accepting and draining -/

/-- Accepting makes new objects at free addresses. -/
theorem objects_performAccept (lib : Library PS CP CR) (socks : List Nat) (now : Nat) (s : Server PS CP CR) (i : Nat) :
    (s.performAccept lib socks now).objects i = s.objects i ∨
      (s.allocated ≤ i ∧ i < (s.performAccept lib socks now).allocated ∧
        ∃ sock, (s.performAccept lib socks now).objects i = ⟨.new lib sock now, 0, [], []⟩) := by
  unfold performAccept
  induction socks generalizing s with
  | nil => exact Or.inl rfl
  | cons sock socks ih =>
      have halloc : (s.acceptOne lib now sock).allocated = s.allocated + 1 := rfl
      rcases ih (s.acceptOne lib now sock) with hsame | ⟨hle, hlt, sock', hnew⟩
      · by_cases hi : i = s.allocated
        · subst hi
          have hle := allocated_performAccept lib socks now (s.acceptOne lib now sock)
          exact Or.inr ⟨Nat.le_refl _, hle, sock, hsame.trans (objects_acceptOne_self lib now sock s)⟩
        · exact Or.inl (hsame.trans (objects_acceptOne_of_ne lib now sock hi))
      · exact Or.inr ⟨by omega, hlt, sock', hnew⟩

/-- Adding a reply queues its bytes behind the responses: those of a custom reply as they are. -/
theorem objects_addReply_self (lib : Library PS CP CR) (now i : Nat) (q : Reply) (s : Server PS CP CR) :
    ∃ bytes, (∀ b, q = .custom b → bytes = b) ∧ (s.addReply lib now i q).objects i =
      { s.objects i with
        conn := { s.conn i with resps := (s.conn i).resps ++ [bytes] }
        added := (s.objects i).added ++ [(q, bytes)] } := by
  cases q with
  | http resp =>
      refine ⟨(s.conn i).renderResponse lib.respInfo now resp, fun b hb => absurd hb (by simp), ?_⟩
      unfold addReply
      exact objects_modify_self _
  | custom bytes =>
      refine ⟨bytes, fun b hb => Reply.custom.inj hb, ?_⟩
      unfold addReply
      exact objects_modify_self _

/-- **`handleResponse` sends, and dispatches the next request** unless the connection is found dead. -/
theorem objects_handleResponse_self (lib : Library PS CP CR) (i : Nat) (r : SendResult) (now : Nat)
    (out : HandlerOutcome) (s : Server PS CP CR) :
    let o : Object PS CP CR :=
      { s.objects i with conn := (HttpConnection.performSend r now { s.conn i with waitingLastHandling := false }).1 }
    (s.handleResponse lib i r now out).1.objects i = o ∨
      Dispatched lib out o ((s.handleResponse lib i r now out).1.objects i) := by
  unfold handleResponse
  generalize HttpConnection.performSend r now { s.conn i with waitingLastHandling := false } = sent
  obtain ⟨c, sent⟩ := sent
  dsimp only
  have hself : (s.setConn i c).objects i = { s.objects i with conn := c } := objects_setConn_self c s
  split
  · left
    split <;> exact hself
  · right
    have henabled : ((s.setConn i c).enableEvents c.sock).objects = (s.setConn i c).objects := by
      unfold enableEvents
      split <;> rfl
    have hobj : (if sent = true then s.setConn i c else (s.setConn i c).enableEvents c.sock).objects i =
        { s.objects i with conn := c } := by
      split
      · exact hself
      · rw [henabled]
        exact hself
    rw [← hobj]
    exact dispatched_handleWaitingRequests lib i out _

theorem objects_drainOne (lib : Library PS CP CR) (i : Nat) (q : Reply) (r : SendResult) (now : Nat)
    (out : HandlerOutcome) (s : Server PS CP CR) :
    (s.drainOne lib i q (popReply q) r now out).objects =
      ((s.addReply lib now i q).handleResponse lib i r now out).1.objects := by
  unfold drainOne
  generalize (s.addReply lib now i q).handleResponse lib i r now out = result
  obtain ⟨u, threw⟩ := result
  dsimp only
  split
  · rfl
  · split
    · rfl
    · cases q <;> rfl

theorem objects_drainOne_of_ne (hji : j ≠ i) (q : Reply) (r : SendResult) (now : Nat) (out : HandlerOutcome)
    (s : Server PS CP CR) : (s.drainOne lib i q (popReply q) r now out).objects j = s.objects j := by
  obtain ⟨c, bytes, hadd, -⟩ := addReply_frame lib now i q s
  rw [objects_drainOne, (effect_handleResponse lib i r now out _).others j fun h => hji (Option.some.inj h).symm, hadd]
  exact objects_modify_of_ne _ hji

/-! ## Steps -/

/-- **What a step can do to the object at an address.** -/
inductive Change (lib : Library PS CP CR) (s : Server PS CP CR) (i : Nat) (input : Input) (t : Server PS CP CR) :
    Prop where
  | same (other : s.subject input ≠ some i) (h : t.objects i = s.objects i)
  | accepted (socks : List Nat) (sock now : Nat) (accepts : input = .accept socks now) (free : s.allocated ≤ i)
      (here : i < t.allocated) (h : t.objects i = ⟨.new lib sock now, 0, [], []⟩)
  | lost (rs : List RecvResult) (now : Nat) (out : HandlerOutcome) (reads : input = .read rs now out)
      (subject : s.subject input = some i) (here : i < s.allocated) (held : s.InTable i) (gone : ¬ t.InTable i)
      (h : t.objects i = { s.objects i with conn := ((s.conn i).performRecv lib rs now).1 })
  | read (rs : List RecvResult) (now : Nat) (out : HandlerOutcome) (reads : input = .read rs now out)
      (subject : s.subject input = some i) (here : i < s.allocated) (held : s.InTable i)
      (returns : ((s.conn i).performRecv lib rs now).2 = false)
      (h : Dispatched lib out { s.objects i with conn := ((s.conn i).performRecv lib rs now).1 } (t.objects i))
  | written (r : SendResult) (now : Nat) (writes : input = .write r now) (subject : s.subject input = some i)
      (here : i < s.allocated)
      (h : t.objects i = { s.objects i with conn := ((s.conn i).performSend r now).1 })
  | drained (r : SendResult) (now : Nat) (out : HandlerOutcome) (drains : input = .drain r now out) (q : Reply)
      (front : s.front = some (i, q)) (here : i < s.allocated) (queued : (s.objects i).answers ≠ [])
      (c : HttpConnection PS CP CR) (bytes : Bytes)
      (intake : c.intake = (s.conn i).intake) (free : c.waitingLastHandling = false)
      (sent : (s.conn i).accepted <+: c.accepted) (verbatim : ∀ b, q = .custom b → bytes = b)
      (h : t.objects i = { s.objects i with conn := c, added := (s.objects i).added ++ [(q, bytes)] } ∨
        Dispatched lib out { s.objects i with conn := c, added := (s.objects i).added ++ [(q, bytes)] } (t.objects i))
  | answered (k : Nat) (r : Reply) (answers : input = .answer i k r) (pending : s.Pending i k)
      (h : t.objects i = { s.objects i with answers := (s.objects i).answers ++ [(k, r)] })

/-- Reading a connection. -/
theorem objects_performRecv_self {sock : Nat} (ht : s.readingConnections[sock]? = some i)
    (hname : (s.conn i).sock = sock) (rs : List RecvResult) (now : Nat) (out : HandlerOutcome) :
    (¬ (s.performRecv lib sock rs now out).InTable i ∧ (s.performRecv lib sock rs now out).objects i =
        { s.objects i with conn := ((s.conn i).performRecv lib rs now).1 }) ∨
      (((s.conn i).performRecv lib rs now).2 = false ∧
        Dispatched lib out { s.objects i with conn := ((s.conn i).performRecv lib rs now).1 }
          ((s.performRecv lib sock rs now out).objects i)) := by
  unfold performRecv
  rw [ht]
  dsimp only
  have hsame := HttpConnection.performRecv_same lib rs now (s.conn i)
  generalize (s.conn i).performRecv lib rs now = received at hsame
  obtain ⟨c, threw⟩ := received
  dsimp only at hsame ⊢
  have hself : (s.setConn i c).objects i = { s.objects i with conn := c } := objects_setConn_self c s
  have hgone : ∀ u : Server PS CP CR, u = (s.setConn i c).remove sock → ¬ u.InTable i ∧
      u.objects i = { s.objects i with conn := c } := by
    rintro u rfl
    refine ⟨?_, hself⟩
    have hsock : (((s.setConn i c).remove sock).conn i).sock = sock := by
      have hconn : ((s.setConn i c).remove sock).conn i = c := congrArg Object.conn hself
      rw [hconn, hsame.sock, hname]
    unfold InTable
    rw [hsock]
    simp [remove]
  split
  · have hkill : (s.setConn i c).killConnection sock = (s.setConn i c).remove sock := by
      have htable : (s.setConn i c).readingConnections[sock]? = some i := ht
      unfold killConnection
      rw [htable]
    exact Or.inl (hgone _ hkill)
  · rename_i hreturns
    split
    · refine Or.inr ⟨Bool.not_eq_true _ ▸ hreturns, ?_⟩
      have hdispatched := dispatched_handleWaitingRequests lib i out (s.setConn i c)
      rw [hself] at hdispatched
      split
      · unfold killConnection
        split <;> exact hdispatched
      · exact hdispatched
    · exact Or.inl (hgone _ rfl)

/-- Writing to a connection. -/
theorem objects_performSend_self {sock : Nat} (ht : s.readingConnections[sock]? = some i) (r : SendResult)
    (now : Nat) : (s.performSend sock r now).objects i =
      { s.objects i with conn := ((s.conn i).performSend r now).1 } := by
  unfold performSend
  rw [ht]
  dsimp only
  split <;> exact objects_setConn_self _ _

/-- A queued reply is an answer that has been given. -/
theorem Strong.answers_of_front {held : Nat → Prop} (h : Strong held s) {q : Reply}
    (hfront : s.front = some (i, q)) : i < s.allocated ∧ (s.objects i).answers ≠ [] := by
  have hnil : s.entries i ≠ [] := List.ne_nil_of_length_pos (length_entries_of_front hfront)
  have hi : i < s.allocated := by
    by_contra hge
    exact hnil (h.fresh (Nat.le_of_not_lt hge))
  refine ⟨hi, ?_⟩
  cases h.stage hi with
  | settled count answered none => exact absurd none hnil
  | handling count answered open_ none waiting => exact absurd none hnil
  | queued r count answered one mem waiting => exact List.ne_nil_of_mem mem
  | lost count answered none gone => exact absurd none hnil

theorem undefined_of_step {input : Input} (h : s.step lib input = some t) : s.undefined = false := by
  unfold step at h
  split at h
  · exact absurd h (by simp)
  · rename_i hdefined
    exact Bool.not_eq_true _ ▸ hdefined

/-- **Every step changes an object in one of these ways.** -/
theorem change_of_step {input : Input} (hfine : Fine (fun _ => False) s) (h : s.step lib input = some t) (i : Nat) :
    Change lib s i input t := by
  have hdrain := h
  have hundefined := undefined_of_step h
  unfold step at h
  split at h
  · exact absurd h (by simp)
  · split at h
    · exact .same (by simp [subject]) (Option.some.inj h ▸ rfl)
    · rename_i socks now rest hphase
      rw [← Option.some.inj h]
      rcases objects_performAccept lib socks now { s with phase := .events rest } i with
        hsame | ⟨hle, hlt, sock, hnew⟩
      · exact .same (by simp [subject]) hsame
      · exact .accepted socks sock now rfl hle hlt hnew
    · rename_i rs now out sock rest hphase
      have hsubject : s.subject (.read rs now out) = s.readingConnections[sock]? := by
        unfold subject
        rw [hphase]
      rw [← Option.some.inj h]
      by_cases hi : s.readingConnections[sock]? = some i
      · obtain ⟨here, hname⟩ := (hfine.strong hundefined (by simp [hphase])).table hi
        have hin : s.InTable i := by
          rw [InTable, hname]
          exact hi
        rcases objects_performRecv_self (s := { s with phase := .events rest }) hi hname rs now out with
          ⟨hgone, hobj⟩ | ⟨hreturns, hdispatched⟩
        · exact .lost rs now out rfl (hsubject.trans hi) here hin hgone hobj
        · exact .read rs now out rfl (hsubject.trans hi) here hin hreturns hdispatched
      · have heffect := effect_performRecv lib sock rs now out { s with phase := .events rest }
        exact .same (hsubject ▸ hi) (heffect.others i hi)
    · rename_i r now sock rest hphase
      have hsubject : s.subject (.write r now) = s.readingConnections[sock]? := by
        unfold subject
        rw [hphase]
      rw [← Option.some.inj h]
      by_cases hi : s.readingConnections[sock]? = some i
      · obtain ⟨here, -⟩ := (hfine.strong hundefined (by simp [hphase])).table hi
        have hself := objects_performSend_self (s := { s with phase := .events rest }) hi r now
        exact .written r now rfl (hsubject.trans hi) here hself
      · exact .same (hsubject ▸ hi) ((effect_performSend sock r now { s with phase := .events rest }).others i hi)
    · rw [← Option.some.inj h]
      exact .same (by simp [subject]) ((Effect.killConnection none _ _).others i (by simp))
    · exact .same (by simp [subject]) (Option.some.inj h ▸ rfl)
    -- the draining loops
    · rename_i r now out hphase
      obtain ⟨-, -, j, q, hfront, rfl⟩ := step_drain hdrain
      by_cases hj : i = j
      · subst hj
        obtain ⟨here, hqueued⟩ := (hfine.strong hundefined (by simp [hphase])).answers_of_front hfront
        obtain ⟨bytes, hverbatim, hadd⟩ := objects_addReply_self lib now i q s
        have hhandled := objects_handleResponse_self lib i r now out (s.addReply lib now i q)
        have hconn : (s.addReply lib now i q).conn i = { s.conn i with resps := (s.conn i).resps ++ [bytes] } :=
          congrArg Object.conn hadd
        rw [hadd, hconn, ← objects_drainOne] at hhandled
        let c : HttpConnection PS CP CR :=
          { s.conn i with resps := (s.conn i).resps ++ [bytes], waitingLastHandling := false }
        exact .drained r now out rfl q hfront here hqueued _ bytes (HttpConnection.intake_performSend r now c)
          (HttpConnection.performSend_same r now c).waiting (HttpConnection.accepted_performSend r now c) hverbatim
          hhandled
      · refine .same ?_ (objects_drainOne_of_ne hj q r now out s)
        simp [subject, hfront, Ne.symm hj]
    · split at h
      · rw [← Option.some.inj h]
        exact .same (by simp [subject]) ((effect_cleanUp none _ _).others i (by simp))
      · exact absurd h (by simp)
    · rename_i j k r
      split at h
      · rename_i hanswer
        rw [← Option.some.inj h]
        by_cases hj : j = i
        · subst hj
          exact .answered k r rfl hanswer.1 (objects_reply_self j k r s)
        · exact .same (by simp [subject]) (objects_reply_of_ne (Ne.symm hj) k r s)
      · exact absurd h (by simp)
    · exact absurd h (by simp)

/-! ## The table over a step -/

/-- Accepting adds entries for new objects only. -/
theorem lookup_performAccept (socks : List Nat) (now : Nat) (s : Server PS CP CR) {sock : Nat}
    (h : (s.performAccept lib socks now).readingConnections[sock]? = some j) :
    s.readingConnections[sock]? = some j ∨ s.allocated ≤ j := by
  unfold performAccept at h
  induction socks generalizing s with
  | nil => exact Or.inl h
  | cons sock' socks ih =>
      have halloc : (s.acceptOne lib now sock').allocated = s.allocated + 1 := rfl
      rcases ih (s.acceptOne lib now sock') h with hlookup | hle
      · have hlookup' : (s.readingConnections.insertIfNew sock' s.allocated)[sock]? = some j := hlookup
        rw [Std.ExtTreeMap.getElem?_insertIfNew] at hlookup'
        split at hlookup'
        · exact Or.inr (Option.some.inj hlookup').le
        · exact Or.inl hlookup'
      · exact Or.inr (by omega)

/-- A step accepts new connections, or takes old ones out of the table. -/
theorem table_of_step {input : Input} (h : s.step lib input = some t) :
    s.allocated ≤ t.allocated ∧ (∀ j < s.allocated, (t.conn j).sock = (s.conn j).sock) ∧
      ∀ {sock j : Nat}, t.readingConnections[sock]? = some j →
        s.readingConnections[sock]? = some j ∨ s.allocated ≤ j := by
  have hquiet : ∀ {about : Option Nat} {u : Server PS CP CR}, Effect about u t → u.allocated = s.allocated →
      (∀ j, (u.conn j).sock = (s.conn j).sock) → u.readingConnections = s.readingConnections →
      s.allocated ≤ t.allocated ∧ (∀ j < s.allocated, (t.conn j).sock = (s.conn j).sock) ∧
        ∀ {sock j : Nat}, t.readingConnections[sock]? = some j →
          s.readingConnections[sock]? = some j ∨ s.allocated ≤ j := by
    intro about u heffect halloc hsocks htable
    refine ⟨(heffect.allocated.trans halloc).ge, fun j _ => (heffect.sock j).trans (hsocks j), ?_⟩
    intro sock j hj
    exact Or.inl (htable ▸ heffect.table hj)
  rcases step_cases h with ⟨phase, heffect⟩ | ⟨socks, now, phase, -, rfl⟩ | ⟨r, now, out, i, q, -, -, -, rfl⟩ |
    ⟨i, k, r, -, rfl⟩
  · exact hquiet heffect rfl (fun _ => rfl) rfl
  · refine ⟨allocated_performAccept lib socks now { s with phase := phase }, ?_,
      fun hj => lookup_performAccept socks now { s with phase := phase } hj⟩
    intro j hj
    rcases objects_performAccept lib socks now { s with phase := phase } j with hsame | ⟨hle, -⟩
    · exact congrArg (fun o => o.conn.sock) hsame
    · exact absurd hj (Nat.not_lt.mpr hle)
  · obtain ⟨u, heffect, hobj, halloc, hresult⟩ := drainOne_cases lib i q r now out s
    obtain ⟨c, bytes, hadd, hsock⟩ := addReply_frame lib now i q s
    have htable : (s.drainOne lib i q (popReply q) r now out).readingConnections = u.readingConnections := by
      rcases hresult with heq | ⟨phase, heq⟩
      · rw [heq]
        cases q <;> rfl
      · rw [heq]
    have hsocks : ∀ j, ((s.addReply lib now i q).conn j).sock = (s.conn j).sock := by
      intro j
      rw [hadd]
      unfold conn
      by_cases hj : j = i
      · rw [hj, objects_modify_self]
        exact hsock
      · rw [objects_modify_of_ne _ hj]
    refine ⟨?_, ?_, ?_⟩
    · rw [halloc, heffect.allocated, hadd]
      exact Nat.le_refl _
    · intro j _
      rw [conn, hobj]
      exact (heffect.sock j).trans (hsocks j)
    · intro sock j hj
      rw [htable] at hj
      have hj' := heffect.table hj
      rw [hadd] at hj'
      exact Or.inl hj'
  · exact hquiet (handled_reply i k r s).effect rfl (fun _ => rfl) rfl

/-- A connection that has left the table does not come back. -/
theorem inTable_of_step {input : Input} (h : s.step lib input = some t) (hi : i < s.allocated)
    (ht : t.InTable i) : s.InTable i := by
  obtain ⟨-, hsocks, htable⟩ := table_of_step h
  unfold InTable at ht ⊢
  rw [hsocks i hi] at ht
  exact (@htable (s.conn i).sock i ht).resolve_right (Nat.not_le.mpr hi)

/-! ## What all changes have in common -/

/-- An address at which no connection has been made. -/
def Spare (lib : Library PS CP CR) (s : Server PS CP CR) (i : Nat) : Prop :=
  s.objects i = ⟨.new lib 0 0, 0, [], []⟩

/-- An address that is still spare was so before. -/
theorem Change.spare {input : Input} (h : Change lib s i input t) (hle : s.allocated ≤ t.allocated)
    (hspare : s.allocated ≤ i → Spare lib s i) (hi : t.allocated ≤ i) : Spare lib t i := by
  have hi' : s.allocated ≤ i := hle.trans hi
  cases h with
  | same other h => exact h.trans (hspare hi')
  | accepted socks sock now accepts free here h => exact absurd here (Nat.not_lt.mpr hi)
  | lost rs now out reads subject here held gone h => exact absurd here (Nat.not_lt.mpr hi')
  | read rs now out reads subject here held returns h => exact absurd here (Nat.not_lt.mpr hi')
  | written r now writes subject here h => exact absurd here (Nat.not_lt.mpr hi')
  | drained r now out drains q front here queued c bytes intake free sent verbatim h =>
      exact absurd here (Nat.not_lt.mpr hi')
  | answered k r answers pending h => exact absurd pending.1 (Nat.not_lt.mpr hi')

/-- **The peer of a connection sees more and more.** -/
theorem Change.accepted_prefix {input : Input} (h : Change lib s i input t)
    (hspare : s.allocated ≤ i → Spare lib s i) : (s.conn i).accepted <+: (t.conn i).accepted := by
  have hrecv : ∀ rs now (c : HttpConnection PS CP CR), (c.performRecv lib rs now).1.accepted = c.accepted :=
    HttpConnection.accepted_performRecv lib
  have hprefix : ∀ {bytes : Bytes}, bytes = (s.conn i).accepted → (s.conn i).accepted <+: bytes :=
    fun h => h ▸ List.prefix_refl _
  unfold conn
  cases h with
  | same other h => exact hprefix (congrArg (fun o => o.conn.accepted) h)
  | accepted socks sock now accepts free here h =>
      rw [hspare free]
      exact List.nil_prefix
  | lost rs now out reads subject here held gone h =>
      apply hprefix
      rw [h]
      exact hrecv rs now (s.conn i)
  | read rs now out reads subject here held returns h =>
      apply hprefix
      rw [h.sent.1]
      exact hrecv rs now (s.conn i)
  | written r now writes subject here h =>
      rw [h]
      exact HttpConnection.accepted_performSend r now (s.conn i)
  | drained r now out drains q front here queued c bytes intake free sent verbatim h =>
      rcases h with h | h
      · rw [h]
        exact sent
      · rw [h.sent.1]
        exact sent
  | answered k r answers pending h => exact hprefix (congrArg (fun o => o.conn.accepted) h)

theorem Change.verbatim {input : Input} (h : Change lib s i input t) (hs : Object.Verbatim (s.objects i)) :
    Object.Verbatim (t.objects i) := by
  unfold Object.Verbatim at hs ⊢
  cases h with
  | same other h => rwa [h]
  | accepted socks sock now accepts free here h =>
      rw [h]
      exact fun b bytes hmem => absurd hmem List.not_mem_nil
  | lost rs now out reads subject here held gone h => rwa [h]
  | read rs now out reads subject here held returns h => rwa [h.sent.2]
  | written r now writes subject here h => rwa [h]
  | drained r now out drains q front here queued c bytes intake free sent verbatim h =>
      have hadded : (t.objects i).added = (s.objects i).added ++ [(q, bytes)] := by
        rcases h with h | h
        · rw [h]
        · exact h.sent.2
      intro b bytes' hmem
      rw [hadded] at hmem
      rcases List.mem_append.mp hmem with hold | hnew
      · exact hs b bytes' hold
      · obtain ⟨hq, rfl⟩ := Prod.mk.inj (List.mem_singleton.mp hnew)
        exact verbatim b hq.symm
  | answered k r answers pending h => rwa [h]

end Server

end HttpServer
end Hiaux
