import Hiaux.HttpServer.Connection
import Hiaux.Lib.Run

/-!
# `HttpServer.Server` — the event loop

`HttpServer::handleEvents` goes through a batch of socket notifications, then, holding `m_sendq_mtx`, adds
the queued responses to their connections, and then cleans up. Here it is cut into steps: one notification,
or one queued response, at a time. A handler is given its outcome when it is called — the replies it gives
before it returns, and whether it throws. Replies given later, by any thread, are steps of their own that
may come between any two steps of the loop (`Input.answer`); those that need the mutex have to wait while
the loop holds it.

A connection is an object at an address, shared by the connection table, the queues and the handlers. Beside
it the model keeps what has happened on it: how many requests were dispatched, which replies were given to
which of them, and which responses were added.

Where the source leaves the defined behaviour — it erases an entry that is not there, or advances an
iterator to an erased one — the run ends (`undefined`). Where the loop waits for the mutex it holds, the
loop makes no further step (`Phase.deadlocked`).
-/

namespace Hiaux
namespace HttpServer

open Lib Network

/-- What a handler answers with: `sendResponse` or `sendCustomResponse`. -/
inductive Reply where
  | http (resp : HttpResponse)
  | custom (bytes : Bytes)
deriving DecidableEq, Repr

/-- What a call of a handler does before it returns: the replies to its request, and whether it throws. A reply to
    another request that waits is a step of its own before or after the call (`Input.answer`): replies only
    go to the end of a queue, and one that waits for the mutex stops the loop whichever request it is for. -/
structure HandlerOutcome where
  replies : List Reply
  throws : Bool
deriving DecidableEq, Repr

/-- A connection object and what has happened on it: requests dispatched, replies given (with the number
    of the request each was given for) and responses added (with the bytes queued for each). -/
structure Object (PS CP CR : Type) where
  conn : HttpConnection PS CP CR
  dispatched : Nat
  answers : List (Nat × Reply)
  added : List (Reply × Bytes)

/-- An entry of a response queue; `request` is the number of the request it answers. -/
structure Queued (ρ : Type) where
  conn : Nat
  request : Nat
  resp : ρ
deriving DecidableEq, Repr

/-- The events enabled for a socket in `m_sockets_masks`. -/
structure Mask where
  read : Bool
  write : Bool
  accept : Bool
deriving DecidableEq, Repr

/-- What the event watcher reports. -/
inductive Notification where
  | accept
  | read (sock : Nat)
  | write (sock : Nat)
  | error (sock : Nat)
deriving DecidableEq, Repr

/-- Where the loop is. While `draining` it holds `m_sendq_mtx`. -/
inductive Phase where
  | idle
  | events (rest : List Notification)
  | draining
  | deadlocked
deriving DecidableEq, Repr

/-- `HttpServer`. -/
structure Server (PS CP CR : Type) where
  objects : Nat → Object PS CP CR
  allocated : Nat
  readingConnections : Std.ExtTreeMap Nat Nat
  socketsMasks : Std.ExtTreeMap Nat Mask
  respQueue : List (Queued HttpResponse)
  customRespQueue : List (Queued Bytes)
  phase : Phase
  undefined : Bool

namespace Server

variable {PS CP CR : Type}

/-- The constructor, listening on `listenSock`. -/
def init (lib : Library PS CP CR) (listenSock : Nat) : Server PS CP CR where
  objects := fun _ => ⟨.new lib 0 0, 0, [], []⟩
  allocated := 0
  readingConnections := ∅
  socketsMasks := (∅ : Std.ExtTreeMap Nat Mask).insert listenSock ⟨true, false, true⟩
  respQueue := []
  customRespQueue := []
  phase := .idle
  undefined := false

/-- The connection at an address. -/
def conn (s : Server PS CP CR) (i : Nat) : HttpConnection PS CP CR := (s.objects i).conn

/-- Changing an object. -/
def modify (i : Nat) (f : Object PS CP CR → Object PS CP CR) (s : Server PS CP CR) : Server PS CP CR :=
  { s with objects := Function.update s.objects i (f (s.objects i)) }

/-- Changing a connection. -/
def setConn (i : Nat) (c : HttpConnection PS CP CR) (s : Server PS CP CR) : Server PS CP CR :=
  s.modify i (fun o => { o with conn := c })

/-! ## The watcher and the connection table -/

/-- `m_events_watcher->delSocket(sock)`. -/
def delSocket (sock : Nat) (s : Server PS CP CR) : Server PS CP CR :=
  { s with socketsMasks := s.socketsMasks.erase sock }

/-- `m_events_watcher->enableEvents(sock, HI_READ | HI_WRITE)`. -/
def enableEvents (sock : Nat) (s : Server PS CP CR) : Server PS CP CR :=
  match s.socketsMasks[sock]? with
  | none => s
  | some m => { s with socketsMasks := s.socketsMasks.insert sock { m with read := true, write := true } }

/-- Taking a socket out of the watcher and the table. -/
def remove (sock : Nat) (s : Server PS CP CR) : Server PS CP CR :=
  { s.delSocket sock with readingConnections := s.readingConnections.erase sock }

/-- `HttpServer::killConnection`. -/
def killConnection (sock : Nat) (s : Server PS CP CR) : Server PS CP CR :=
  match s.readingConnections[sock]? with
  | none => s.delSocket sock
  | some _ => s.remove sock

/-! ## Replies -/

/-- `HttpServer::sendResponse`, called for request `k`: the connection need not be in the table, and the
    mutex is not taken. -/
def sendResponse (i k : Nat) (resp : HttpResponse) (s : Server PS CP CR) : Server PS CP CR :=
  { s with respQueue := s.respQueue ++ [⟨i, k, resp⟩] }

/-- `HttpServer::onSendResponse`, called for request `k`. It takes the mutex first. -/
def onSendResponse (sock k : Nat) (resp : HttpResponse) (s : Server PS CP CR) : Server PS CP CR :=
  if s.phase = .draining then { s with phase := .deadlocked }
  else
    match s.readingConnections[sock]? with
    | none => s
    | some i => { s with respQueue := s.respQueue ++ [⟨i, k, resp⟩] }

/-- `HttpServer::onSendCustomResponse`, called for request `k`. -/
def onSendCustomResponse (sock k : Nat) (resp : Bytes) (s : Server PS CP CR) : Server PS CP CR :=
  match s.readingConnections[sock]? with
  | none => s
  | some i => { s with customRespQueue := s.customRespQueue ++ [⟨i, k, resp⟩] }

/-- `sendResponse` or `sendCustomResponse` on the connection at `i`, in answer to its request `k`. -/
def reply (i k : Nat) (r : Reply) (s : Server PS CP CR) : Server PS CP CR :=
  let s := s.modify i (fun o => { o with answers := o.answers ++ [(k, r)] })
  match r with
  | .http resp => s.onSendResponse (s.conn i).sock k resp
  | .custom bytes => s.onSendCustomResponse (s.conn i).sock k bytes

/-- The replies a handler gives before it returns; a call that waits for the mutex never returns. -/
def replies (i k : Nat) : List Reply → Server PS CP CR → Server PS CP CR
  | [], s => s
  | r :: rs, s =>
      let s := s.reply i k r
      if s.phase = .deadlocked then s else s.replies i k rs

/-- A call of a handler for request `k` of the connection at `i`; whether it throws. -/
def runHandler (i k : Nat) (o : HandlerOutcome) (s : Server PS CP CR) : Server PS CP CR × Bool :=
  let s := s.replies i k o.replies
  (s, o.throws && s.phase ≠ .deadlocked)

/-! ## Dispatching -/

/-- The parser and the handshake for an upgrade request, if the protocol is known and its builder returns
    a parser (`getCustomParser`). -/
def getCustomParser (lib : Library PS CP CR) (request : HttpRequest) : Option (Bytes × CP × Bytes) :=
  match request.headers[ascii "Upgrade"]? with
  | none => none
  | some protocol =>
      match lib.customProtocols protocol with
      | none => none
      | some info =>
          match info.parserBuilder request with
          | none => none
          | some cp => some (protocol, cp, info.handshakeMessage)

/-- The request at the front of a queue is taken for handling. -/
def dispatch (i : Nat) (c : HttpConnection PS CP CR) (s : Server PS CP CR) : Server PS CP CR :=
  s.modify i (fun o => { o with
    conn := { c with waitingLastHandling := true }
    dispatched := o.dispatched + 1 })

/-- `HttpServer::handleWaitingRequests`, with `checkUpgrade` and `runCustomHandler`; whether a handler has
    thrown. -/
def handleWaitingRequests (lib : Library PS CP CR) (i : Nat) (o : HandlerOutcome) (s : Server PS CP CR) :
    Server PS CP CR × Bool :=
  let c := s.conn i
  let k := (s.objects i).dispatched
  if c.waitingLastHandling then (s, false)
  else
    match c.customProtocol, c.httpRequests, c.customRequests with
    -- http
    | false, request :: rest, _ =>
        let s := s.dispatch i { c with httpRequests := rest }
        match getCustomParser lib request with
        | some (protocol, cp, handshake) =>
            let s := s.setConn i { s.conn i with
              customParser := some cp, customProtocol := true, customProtocolId := protocol }
            let s := s.reply i k (.custom handshake)
            -- the handshake is on its way, but the connection counts as answered
            (s.setConn i { s.conn i with waitingLastHandling := false }, false)
        | none => s.runHandler i k o
    -- custom protocol
    | _, _, _ :: rest =>
        if (lib.customProtocols c.customProtocolId).isSome then
          (s.dispatch i { c with customRequests := rest }).runHandler i k o
        -- `runCustomHandler` returns without an answer, and the connection waits for ever
        else (s.setConn i { c with customRequests := rest, waitingLastHandling := true }, false)
    | _, _, [] => (s, false)

/-! ## Socket events -/

/-- One accepted connection. -/
def acceptOne (lib : Library PS CP CR) (now : Nat) (s : Server PS CP CR) (sock : Nat) : Server PS CP CR :=
  { s with
    objects := Function.update s.objects s.allocated ⟨.new lib sock now, 0, [], []⟩
    allocated := s.allocated + 1
    readingConnections := s.readingConnections.insertIfNew sock s.allocated
    socketsMasks := s.socketsMasks.insert sock ⟨true, false, false⟩ }

/-- `HttpServer::performAccept`: all connections waiting. -/
def performAccept (lib : Library PS CP CR) (socks : List Nat) (now : Nat) (s : Server PS CP CR) :
    Server PS CP CR :=
  socks.foldl (acceptOne lib now) s

/-- `HttpServer::performRecv`. An exception of the parser or of the handler kills the connection. -/
def performRecv (lib : Library PS CP CR) (sock : Nat) (rs : List RecvResult) (now : Nat)
    (o : HandlerOutcome) (s : Server PS CP CR) : Server PS CP CR :=
  match s.readingConnections[sock]? with
  | none => s.delSocket sock
  | some i =>
      let (c, threw) := (s.conn i).performRecv lib rs now
      let s := s.setConn i c
      if threw then s.killConnection sock
      else if c.notDead now then
        let (s, threw) := s.handleWaitingRequests lib i o
        if threw then s.killConnection sock else s
      else s.remove sock

/-- `HttpServer::performSend`. -/
def performSend (sock : Nat) (r : SendResult) (now : Nat) (s : Server PS CP CR) : Server PS CP CR :=
  match s.readingConnections[sock]? with
  | none => s
  | some i =>
      let (c, sent) := (s.conn i).performSend r now
      let s := s.setConn i c
      if !sent && !c.notDead now then s.remove sock else s

/-! ## Draining the response queues -/

/-- `addResponse` or `addCustomResponse` on the connection at `i`. -/
def addReply (lib : Library PS CP CR) (now i : Nat) (r : Reply) (s : Server PS CP CR) : Server PS CP CR :=
  let c := s.conn i
  let (c', bytes) := match r with
    | .http resp => (c.addResponse lib.respInfo now resp, c.renderResponse lib.respInfo now resp)
    | .custom bytes => (c.addCustomResponse bytes, bytes)
  s.modify i (fun o => { o with conn := c', added := o.added ++ [(r, bytes)] })

/-- `HttpServer::handleResponse`; whether a handler has thrown. A connection found dead is erased from the
    table without a check that it is there. -/
def handleResponse (lib : Library PS CP CR) (i : Nat) (r : SendResult) (now : Nat) (o : HandlerOutcome)
    (s : Server PS CP CR) : Server PS CP CR × Bool :=
  let (c, sent) := { s.conn i with waitingLastHandling := false }.performSend r now
  let s := s.setConn i c
  if !sent && !c.notDead now then
    match s.readingConnections[c.sock]? with
    -- `erase(find(..))` with nothing found
    | none => ({ s.delSocket c.sock with undefined := true }, false)
    | some _ => (s.remove c.sock, false)
  else (if sent then s else s.enableEvents c.sock).handleWaitingRequests lib i o

/-- Adding the reply at the front of a queue and handling it; `pop` is what follows. An exception leaves
    the loops, and the reply in its queue. -/
def drainOne (lib : Library PS CP CR) (i : Nat) (q : Reply) (pop : Server PS CP CR → Server PS CP CR)
    (r : SendResult) (now : Nat) (o : HandlerOutcome) (s : Server PS CP CR) : Server PS CP CR :=
  let (s, threw) := (s.addReply lib now i q).handleResponse lib i r now o
  if s.undefined || s.phase = .deadlocked then s
  else if threw then { s with phase := .idle }
  else pop s

/-- `HttpServer::cleanUpDeadConnections`: `last_cleanup` is `0` for ever. Erasing a dead connection
    invalidates the iterator that is advanced next. -/
def cleanUpDeadConnections (now : Nat) (s : Server PS CP CR) : Server PS CP CR :=
  if HttpConnection.elapsed now 0 < 5 then s
  else if s.readingConnections.toList.all (fun si => (s.conn si.2).notDead now) then s
  else { s with undefined := true }

/-- The body of its loop, for one entry. -/
def cleanUpOne (now : Nat) (s : Server PS CP CR) (sock : Nat) : Server PS CP CR :=
  match s.readingConnections[sock]? with
  | none => s
  | some i =>
      if (s.conn i).notDead now then s
      else { s.delSocket (s.conn i).sock with readingConnections := s.readingConnections.erase sock }

/-- The clean-up as far as the body of its loop goes, for the entries that the iterator reaches. -/
def cleanUpReached (now : Nat) (reached : List Nat) (s : Server PS CP CR) : Server PS CP CR :=
  if HttpConnection.elapsed now 0 < 5 then s else reached.foldl (cleanUpOne now) s

/-! ## Steps -/

/-- What a step is given by the kernel, the clock and the handlers. -/
inductive Input where
  | poll (batch : List Notification)
  | accept (socks : List Nat) (now : Nat)
  | read (rs : List RecvResult) (now : Nat) (o : HandlerOutcome)
  | write (r : SendResult) (now : Nat)
  | error
  | lock
  | drain (r : SendResult) (now : Nat) (o : HandlerOutcome)
  | finish (now : Nat)
  | answer (conn request : Nat) (r : Reply)

/-- Whether request `k` of the connection at `i` has been given to a handler that has not answered yet. -/
def Pending (s : Server PS CP CR) (i k : Nat) : Prop :=
  i < s.allocated ∧ k < (s.objects i).dispatched ∧ ∀ a ∈ (s.objects i).answers, a.1 ≠ k

instance (s : Server PS CP CR) (i k : Nat) : Decidable (s.Pending i k) :=
  inferInstanceAs (Decidable (_ ∧ _ ∧ _))

/-- Whether a reply has to wait for the mutex. -/
def blocked (s : Server PS CP CR) : Reply → Bool
  | .http _ => s.phase = .draining || s.phase = .deadlocked
  | .custom _ => false

/-- One step; `none` when the input does not fit where the loop is. -/
def step (lib : Library PS CP CR) (s : Server PS CP CR) (input : Input) : Option (Server PS CP CR) :=
  if s.undefined then none
  else
    match input, s.phase with
    | .poll batch, .idle => some { s with phase := .events batch }
    | .accept socks now, .events (.accept :: rest) =>
        some ({ s with phase := .events rest }.performAccept lib socks now)
    | .read rs now o, .events (.read sock :: rest) =>
        some ({ s with phase := .events rest }.performRecv lib sock rs now o)
    | .write r now, .events (.write sock :: rest) =>
        some ({ s with phase := .events rest }.performSend sock r now)
    | .error, .events (.error sock :: rest) => some ({ s with phase := .events rest }.killConnection sock)
    | .lock, .events [] => some { s with phase := .draining }
    -- The first loop ends before the second starts. `onSendResponse` waits for the mutex meanwhile. What
    -- `HttpServer::sendResponse`, which takes no mutex, adds during the second loop is taken next here, and
    -- with the next batch in the source.
    | .drain r now o, .draining =>
        match s.respQueue, s.customRespQueue with
        | q :: _, _ =>
            some (s.drainOne lib q.conn (.http q.resp) (fun s => { s with respQueue := s.respQueue.tail })
              r now o)
        | [], q :: _ =>
            some (s.drainOne lib q.conn (.custom q.resp)
              (fun s => { s with customRespQueue := s.customRespQueue.tail }) r now o)
        | [], [] => none
    | .finish now, .draining =>
        if s.respQueue = [] ∧ s.customRespQueue = [] then
          some { s.cleanUpDeadConnections now with phase := .idle }
        else none
    | .answer i k r, _ => if s.Pending i k ∧ s.blocked r = false then some (s.reply i k r) else none
    | _, _ => none

/-- A run: each input fits where the loop then is. -/
def run (lib : Library PS CP CR) : Server PS CP CR → List Input → Option (Server PS CP CR) :=
  Lib.run (step lib)

end Server

end HttpServer
end Hiaux
