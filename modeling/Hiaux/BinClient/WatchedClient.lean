import Hiaux.BinClient.BinClientA
import Hiaux.Events.Masks

/-!
# `BinClient.WatchedClient` — the client with its event watcher and its lock

`BinClientA` with what its handlers do besides: they register sockets with the event watcher, they hold a
ticket of `lock` in `onWrite`, `putRequestsToFreeConnections` and `call`, and the calls of `onFinished` they
lead to are made with or without it. A ticket is declared before the connection a handler works on, so the
connection goes first: if it is the last to hold it, its destructor runs under the lock.

The handlers are those of `BinClientA`, with the watcher's calls and the lock in their places; forgetting
both gives its steps back (`client_step`).
-/

namespace Hiaux
namespace BinClient

open Lib Strings Network Events

/-- A call of `onFinished`, and whether its thread held the lock. -/
structure CallbackRun where
  call : Finished
  locked : Bool
deriving DecidableEq, Repr

/-- `BinClientA` with the entries of `m_sockets_masks` in its watcher, whether a handler holds `lock`, the
    calls of `onFinished` made, and whether an element was touched that was not there: the front of an empty
    `m_sent_requests`, or an entry of `m_free_connections` that was gone. -/
structure WatchedClient where
  client : BinClientA
  socketsMasks : Std.ExtTreeMap Nat Mask
  locked : Bool
  callbacks : List CallbackRun
  missing : Bool

namespace WatchedClient

/-! ## Watcher, lock and callbacks -/

/-- `m_events_watcher->addSocket(sock, mask, NULL)`. -/
def addSocket (sock : Nat) (mask : Mask) (w : WatchedClient) : WatchedClient :=
  { w with socketsMasks := w.socketsMasks.insert sock mask }

/-- `m_events_watcher->delSocket(sock)`. -/
def delSocket (sock : Nat) (w : WatchedClient) : WatchedClient :=
  { w with socketsMasks := w.socketsMasks.erase sock }

/-- `hLockTicketPtr ticket = lock.lock()`. -/
def lock (w : WatchedClient) : WatchedClient := { w with locked := true }

/-- The end of the ticket. -/
def unlock (w : WatchedClient) : WatchedClient := { w with locked := false }

/-- Something the client does that finishes no request. -/
def on (f : BinClientA → BinClientA) (w : WatchedClient) : WatchedClient := { w with client := f w.client }

/-- The callbacks that something the client does leads to, as they are run now. -/
def callbacksOf (f : BinClientA → BinClientA) (w : WatchedClient) : List CallbackRun :=
  ((f w.client).finished.drop w.client.finished.length).map (fun call => ⟨call, w.locked⟩)

/-- Something the client does, with the callbacks it leads to. -/
def finishing (f : BinClientA → BinClientA) (w : WatchedClient) : WatchedClient :=
  { w with client := f w.client, callbacks := w.callbacks ++ w.callbacksOf f }

/-! ## Connections -/

/-- `BinClientA::establishNewConnection`: an exception of the constructor is thrown before the socket is
    inserted or registered. -/
def establishNewConnection (dialed : Option Dialed) (w : WatchedClient) : WatchedClient × Option ConnEx :=
  match dialed with
  | none => (w, none)
  | some d =>
      match w.client.establishNewConnection (some d) with
      | (c, some e) => ({ w with client := c }, some e)
      | (c, none) => ({ w with client := c }.addSocket d.sock (hiRead ||| hiWrite), none)

/-- `BinClientA::removeConnection`. -/
def removeConnection (i : Nat) (w : WatchedClient) : WatchedClient :=
  (w.delSocket (w.client.conn i).sock).on (·.removeConnection i)

/-- `BinClientA::onLostConnection`. -/
def onLostConnection (i : Nat) (dialed : Option Dialed) (w : WatchedClient) : WatchedClient :=
  ((w.removeConnection i).establishNewConnection dialed).1

/-- `BinClientA::performSend`. -/
def performSend (i : Nat) (r : SendResult) (dialed : Option Dialed) (w : WatchedClient) : WatchedClient :=
  match (w.client.conn i).performSend r with
  | (c, some .lostConnectionEx) => (w.on (·.setConn i c)).onLostConnection i dialed
  | (c, _) => w.on (·.setConn i c)

/-- `_conn->performRecv()`, on the client's state. -/
def recvOn (i : Nat) (junk : Junk) (rs : List RecvResult) (s : BinClientA) : BinClientA :=
  let out := (s.conn i).performRecv junk rs
  let received := (s.conn i).responses junk rs
  let s := s.modify i (fun o => { o with conn := out.conn, received := o.received ++ received })
  { s with
    finished := s.finished ++ out.finished.map (fun p => ⟨i, p.1, true, p.2⟩)
    undefined := out.undefined }

/-- `BinClientA::performRecv`. A receive that does not come to its end either hangs in its loop or reads the
    front of an empty queue. -/
def performRecv (i : Nat) (junk : Junk) (rs : List RecvResult) (dialed : Option Dialed)
    (w : WatchedClient) : WatchedClient :=
  let out := (w.client.conn i).performRecv junk rs
  let w := w.finishing (recvOn i junk rs)
  if out.undefined then { w with missing := Connection.recvLoop [] rs ≠ .hang }
  else
    match out.thrown with
    | some .lostConnectionEx => w.onLostConnection i dialed
    | some (.parser _) => w.onLostConnection i dialed
    | _ => w

/-! ## Handlers -/

/-- `BinClientA::onRead`. -/
def onRead (sock : Nat) (junk : Junk) (rs : List RecvResult) (dialed : Option Dialed) (w : WatchedClient) :
    WatchedClient :=
  match w.client.connections[sock]? with
  | none => w
  | some i =>
      let w := w.performRecv i junk rs dialed
      if w.client.undefined then w else w.finishing .collect

/-- `BinClientA::onWrite` after the ticket has been taken, to the end of its connection. -/
def onWriteLocked (sock : Nat) (r : SendResult) (dialed : Option Dialed) (w : WatchedClient) :
    WatchedClient :=
  match w.client.connections[sock]? with
  | none => w
  | some i =>
      let c := w.client.conn i
      if c.state = .active then
        if c.sendBuffer.length = 0 then
          match w.client.newRequests with
          | req :: rest =>
              ((w.on (fun s => { s.addRequest i req with newRequests := rest })).performSend i r
                dialed).finishing .collect
          | [] => (w.on (·.setFree sock i)).finishing .collect
        else (w.performSend i r dialed).finishing .collect
      else if c.sendBuffer.length = 0 then
        ((w.on (·.setFree sock i)).performSend i r dialed).finishing .collect
      else (w.performSend i r dialed).finishing .collect

/-- `BinClientA::onWrite`. -/
def onWrite (sock : Nat) (r : SendResult) (dialed : Option Dialed) (w : WatchedClient) : WatchedClient :=
  (w.lock.onWriteLocked sock r dialed).unlock

/-- `BinClientA::onError`. -/
def onError (sock : Nat) (dialed : Option Dialed) (w : WatchedClient) : WatchedClient :=
  match w.client.connections[sock]? with
  | none => w
  | some i => (w.onLostConnection i dialed).finishing .collect

/-- `BinClientA::call`. -/
def call (pb : Protobuf) (c : Call) (w : WatchedClient) : WatchedClient :=
  (w.lock.on (·.call pb c)).unlock

/-- `BinClientA::putRequestsToFreeConnections` after the ticket has been taken. Should the program survive
    the erase of an entry that is gone, the connection is destroyed by the `return` behind it. -/
def putRequestsLocked (r : SendResult) (dialed : Option Dialed) (w : WatchedClient) : WatchedClient :=
  match w.client.newRequests with
  | [] => w
  | req :: rest =>
      match w.client.freeConnections.toList.find? (fun p => (w.client.conn p.2).state = .active) with
      | none => w
      | some (sock, i) =>
          let w := (w.on (fun s => { s with newRequests := rest }.addRequest i req)).performSend i r dialed
          if w.client.freeConnections.contains sock then
            (w.on (fun s => { s with freeConnections := s.freeConnections.erase sock })).finishing .collect
          else
            { w.on (fun s => { s with undefined := true }) with
              callbacks := w.callbacks ++ w.callbacksOf .collect
              missing := true }

/-- `BinClientA::putRequestsToFreeConnections`. -/
def putRequestsToFreeConnections (r : SendResult) (dialed : Option Dialed) (w : WatchedClient) :
    WatchedClient :=
  (w.lock.putRequestsLocked r dialed).unlock

/-- `BinClientA::handleEvents` up to the call of the watcher. -/
def handleEvents (dialed : Option Dialed) (put : SendResult) (redialed : Option Dialed) (now : Nat)
    (keepalive : Nat → SendResult) (w : WatchedClient) : WatchedClient :=
  let (w, thrown) :=
    if w.client.connections.size < w.client.maxConnections then w.establishNewConnection dialed
    else (w, none)
  if thrown.isSome then w
  else
    let w := (w.finishing .collect).putRequestsToFreeConnections put redialed
    if w.client.undefined then w
    else w.on (fun s => s.checkKeepAlive now keepalive s.connections.toList)

/-! ## Steps -/

/-- One step. -/
def step (pb : Protobuf) (w : WatchedClient) (input : BinClientA.Input) : Option WatchedClient :=
  if w.client.undefined then none
  else
    match input with
    | .call c => some (w.call pb c)
    | .handleEvents dialed put redialed now keepalive =>
        some (w.handleEvents dialed put redialed now keepalive)
    | .read sock junk rs redialed => some (w.onRead sock junk rs redialed)
    | .write sock r redialed => some (w.onWrite sock r redialed)
    | .error sock redialed => some (w.onError sock redialed)

/-- `reinitConnections`. -/
def reinitConnections : List (Option Dialed) → WatchedClient → WatchedClient × Option ConnEx
  | [], w => (w, none)
  | dialed :: rest, w =>
      match w.establishNewConnection dialed with
      | (w, some e) => (w, some e)
      | (w, none) => w.reinitConnections rest

/-- The client before its first connection; it may have `n` of them. -/
def unconnected (n : Nat) : WatchedClient :=
  ⟨⟨fun _ => ⟨(Connection.new 0 0 .again).1, [], []⟩, 0, ∅, ∅, [], n, [], [], false⟩, ∅, false, [], false⟩

/-- The constructor. -/
def new (attempts : List (Option Dialed)) : Option WatchedClient :=
  match reinitConnections attempts (unconnected attempts.length) with
  | (_, some _) => none
  | (w, none) => if w.client.connections.size = 0 then none else some w

/-! ## Forgetting the watcher and the lock -/

section Client

variable (w : WatchedClient)

theorem client_establishNewConnection (dialed : Option Dialed) :
    ((w.establishNewConnection dialed).1.client, (w.establishNewConnection dialed).2) =
      w.client.establishNewConnection dialed := by
  cases dialed with
  | none => rfl
  | some d =>
      unfold establishNewConnection
      rcases h : w.client.establishNewConnection (some d) with ⟨c, _ | e⟩
      · simp only [h]
        rfl
      · simp only [h]

theorem client_onLostConnection (i : Nat) (dialed : Option Dialed) :
    (w.onLostConnection i dialed).client = w.client.onLostConnection i dialed :=
  congrArg Prod.fst ((w.removeConnection i).client_establishNewConnection dialed)

theorem client_performSend (i : Nat) (r : SendResult) (dialed : Option Dialed) :
    (w.performSend i r dialed).client = w.client.performSend i r dialed := by
  unfold performSend BinClientA.performSend
  rcases (w.client.conn i).performSend r with ⟨c, _ | _ | _ | _⟩
  · rfl
  · exact client_onLostConnection _ i dialed
  · rfl
  · rfl

theorem client_performRecv (i : Nat) (junk : Junk) (rs : List RecvResult) (dialed : Option Dialed) :
    (w.performRecv i junk rs dialed).client = w.client.performRecv i junk rs dialed := by
  unfold performRecv BinClientA.performRecv
  dsimp only
  by_cases hundef : ((w.client.conn i).performRecv junk rs).undefined = true
  · rw [if_pos hundef]
    exact (if_pos hundef).symm
  · rw [if_neg hundef]
    refine Eq.trans ?_ (if_neg hundef).symm
    rcases ((w.client.conn i).performRecv junk rs).thrown with _ | _ | _ | _
    · rfl
    · exact client_onLostConnection _ i dialed
    · rfl
    · exact client_onLostConnection _ i dialed

theorem client_onRead (sock : Nat) (junk : Junk) (rs : List RecvResult) (dialed : Option Dialed) :
    (w.onRead sock junk rs dialed).client = w.client.onRead sock junk rs dialed := by
  unfold onRead BinClientA.onRead
  cases w.client.connections[sock]? with
  | none => rfl
  | some i =>
      dsimp only
      rw [← client_performRecv]
      exact apply_ite client _ _ _

theorem client_sent (i : Nat) (r : SendResult) (dialed : Option Dialed) :
    ((w.performSend i r dialed).finishing .collect).client = (w.client.performSend i r dialed).collect :=
  congrArg BinClientA.collect (client_performSend w i r dialed)

theorem client_onWrite (sock : Nat) (r : SendResult) (dialed : Option Dialed) :
    (w.onWrite sock r dialed).client = w.client.onWrite sock r dialed := by
  have hlock : w.lock.client = w.client := rfl
  show (w.lock.onWriteLocked sock r dialed).client = _
  unfold onWriteLocked BinClientA.onWrite
  rw [hlock]
  cases w.client.connections[sock]? with
  | none => rfl
  | some i =>
      dsimp only
      by_cases hactive : (w.client.conn i).state = .active
      · rw [if_pos hactive, if_pos hactive]
        by_cases hempty : (w.client.conn i).sendBuffer.length = 0
        · rw [if_pos hempty, if_pos hempty]
          cases w.client.newRequests with
          | nil => rfl
          | cons req rest => exact client_sent _ i r dialed
        · rw [if_neg hempty, if_neg hempty]
          exact client_sent _ i r dialed
      · rw [if_neg hactive, if_neg hactive]
        by_cases hempty : (w.client.conn i).sendBuffer.length = 0
        · rw [if_pos hempty, if_pos hempty]
          exact client_sent _ i r dialed
        · rw [if_neg hempty, if_neg hempty]
          exact client_sent _ i r dialed

theorem client_onError (sock : Nat) (dialed : Option Dialed) :
    (w.onError sock dialed).client = w.client.onError sock dialed := by
  unfold onError BinClientA.onError
  cases w.client.connections[sock]? with
  | none => rfl
  | some i => exact congrArg BinClientA.collect (client_onLostConnection w i dialed)

theorem client_putRequestsToFreeConnections (r : SendResult) (dialed : Option Dialed) :
    (w.putRequestsToFreeConnections r dialed).client =
      w.client.putRequestsToFreeConnections r dialed := by
  have hlock : w.lock.client = w.client := rfl
  show (w.lock.putRequestsLocked r dialed).client = _
  unfold putRequestsLocked BinClientA.putRequestsToFreeConnections
  rw [hlock]
  cases w.client.newRequests with
  | nil => rfl
  | cons req rest =>
      dsimp only
      cases w.client.freeConnections.toList.find? (fun p => (w.client.conn p.2).state = .active) with
      | none => rfl
      | some p =>
          have hsend := client_performSend
            (w.lock.on (fun s => { s with newRequests := rest }.addRequest p.2 req)) p.2 r dialed
          dsimp only
          generalize performSend p.2 r dialed (w.lock.on _) = v at hsend ⊢
          have hsend' : ({ w.client with newRequests := rest }.addRequest p.2 req).performSend p.2 r dialed =
              v.client := hsend.symm
          rw [hsend']
          exact apply_ite client _ _ _

theorem client_handleEvents (dialed : Option Dialed) (put : SendResult) (redialed : Option Dialed)
    (now : Nat) (keepalive : Nat → SendResult) :
    (w.handleEvents dialed put redialed now keepalive).client =
      w.client.handleEvents dialed put redialed now keepalive := by
  -- what follows an attempt to connect
  have hrest : ∀ (v : WatchedClient) (thrown : Option ConnEx),
      (if thrown.isSome then v
        else
          if ((v.finishing .collect).putRequestsToFreeConnections put redialed).client.undefined then
            (v.finishing .collect).putRequestsToFreeConnections put redialed
          else ((v.finishing .collect).putRequestsToFreeConnections put redialed).on
            (fun s => s.checkKeepAlive now keepalive s.connections.toList)).client =
      (if thrown.isSome then v.client
        else
          if (v.client.collect.putRequestsToFreeConnections put redialed).undefined then
            v.client.collect.putRequestsToFreeConnections put redialed
          else (v.client.collect.putRequestsToFreeConnections put redialed).checkKeepAlive now keepalive
            (v.client.collect.putRequestsToFreeConnections put redialed).connections.toList) := by
    intro v thrown
    have hput := client_putRequestsToFreeConnections (v.finishing .collect) put redialed
    simp only [apply_ite client, on, hput]
    rfl
  unfold handleEvents BinClientA.handleEvents
  by_cases hroom : w.client.connections.size < w.client.maxConnections
  · rw [if_pos hroom, if_pos hroom, ← client_establishNewConnection]
    exact hrest _ _
  · rw [if_neg hroom, if_neg hroom]
    exact hrest _ _

/-- **Forgetting watcher and lock** gives the steps of `BinClientA`. -/
theorem client_step (pb : Protobuf) (input : BinClientA.Input) :
    w.client.step pb input = (w.step pb input).map client := by
  unfold step BinClientA.step
  by_cases hundef : w.client.undefined = true
  · rw [if_pos hundef, if_pos hundef]
    rfl
  · rw [if_neg hundef, if_neg hundef]
    cases input with
    | call c => rfl
    | handleEvents dialed put redialed now keepalive =>
        exact congrArg some (w.client_handleEvents dialed put redialed now keepalive).symm
    | read sock junk rs redialed => exact congrArg some (w.client_onRead sock junk rs redialed).symm
    | write sock r redialed => exact congrArg some (w.client_onWrite sock r redialed).symm
    | error sock redialed => exact congrArg some (w.client_onError sock redialed).symm

/-- The runs of `BinClientA`. -/
theorem client_run (pb : Protobuf) (inputs : List BinClientA.Input) :
    w.client.run pb inputs = (Lib.run (step pb) w inputs).map client :=
  run_map client (fun v input => v.client_step pb input) w inputs

theorem client_reinitConnections (attempts : List (Option Dialed)) :
    ((reinitConnections attempts w).1.client, (reinitConnections attempts w).2) =
      w.client.reinitConnections attempts := by
  induction attempts generalizing w with
  | nil => rfl
  | cons dialed rest ih =>
      unfold reinitConnections BinClientA.reinitConnections
      rw [← client_establishNewConnection]
      rcases w.establishNewConnection dialed with ⟨v, _ | e⟩
      · exact ih v
      · rfl

end Client

/-- The constructor of `BinClientA`. -/
theorem client_new (attempts : List (Option Dialed)) :
    BinClientA.new attempts = (new attempts).map client := by
  unfold new BinClientA.new
  have hinit := client_reinitConnections (unconnected attempts.length) attempts
  rw [show (BinClientA.mk _ _ _ _ _ _ _ _ _ : BinClientA) = (unconnected attempts.length).client from rfl,
    ← hinit]
  rcases reinitConnections attempts (unconnected attempts.length) with ⟨v, _ | e⟩
  · dsimp only
    split
    · rfl
    · rfl
  · rfl

end WatchedClient
end BinClient
end Hiaux
