import Hiaux.HttpServer.Correctness.Drain
import Hiaux.HttpServer.Correctness.Lock
import Hiaux.HttpServer.Program

/-!
# `HttpServer.Correctness.Effects` — what a step of the loop changes

Whatever the handlers do — answer any number of times, or throw — an operation of the loop is about one
connection (`subject`). It leaves the other objects alone, takes connections out of the table only, and adds
to the response queues only entries for the connection that the table has under its descriptor
(`Effect`). What a handler does leaves the table and the watcher alone too (`Handled`).
-/

namespace Hiaux
namespace HttpServer

open Lib Network

variable {PS CP CR : Type}

/-! ## Output that is still to be sent -/

namespace HttpConnection

/-- What a handler leaves alone on a connection. -/
structure SameOutput (c c' : HttpConnection PS CP CR) : Prop where
  sock : c'.sock = c.sock
  sendBuffer : c'.sendBuffer = c.sendBuffer
  resps : c'.resps = c.resps

theorem SameOutput.refl (c : HttpConnection PS CP CR) : SameOutput c c := ⟨rfl, rfl, rfl⟩

theorem SameOutput.trans {a b c : HttpConnection PS CP CR} (h : SameOutput a b) (h' : SameOutput b c) :
    SameOutput a c :=
  ⟨h'.sock.trans h.sock, h'.sendBuffer.trans h.sendBuffer, h'.resps.trans h.resps⟩

theorem performRecv_sameOutput (lib : Library PS CP CR) (rs : List RecvResult) (now : Nat)
    (c : HttpConnection PS CP CR) : SameOutput c (c.performRecv lib rs now).1 := by
  unfold performRecv
  split
  · exact ⟨rfl, rfl, rfl⟩
  · split
    · split
      · exact SameOutput.refl c
      · exact ⟨rfl, rfl, rfl⟩
    · unfold receiveHttp
      dsimp only
      split <;> split <;> exact ⟨rfl, rfl, rfl⟩

end HttpConnection

namespace Server

variable {about : Option Nat} {s t u : Server PS CP CR} {i j : Nat}

/-! ## Effects -/

/-- The connection that the table has under the descriptor of another one. -/
def found (s : Server PS CP CR) (about : Option Nat) : Option Nat :=
  about.bind (fun i => s.readingConnections[(s.conn i).sock]?)

/-- A queue with new entries, all for one connection. -/
def Routed {ρ : Type} (target : Option Nat) (q q' : List (Queued ρ)) : Prop :=
  ∃ news, q' = q ++ news ∧ ∀ x ∈ news, target = some x.conn

theorem Routed.refl {ρ : Type} (target : Option Nat) (q : List (Queued ρ)) : Routed target q q :=
  ⟨[], (List.append_nil q).symm, fun _ hx => absurd hx List.not_mem_nil⟩

theorem Routed.trans {ρ : Type} {target target' : Option Nat} {q q' q'' : List (Queued ρ)}
    (h : Routed target q q') (h' : Routed target' q' q'')
    (htarget : ∀ i, target' = some i → target = some i) : Routed target q q'' := by
  obtain ⟨news, rfl, hnews⟩ := h
  obtain ⟨news', rfl, hnews'⟩ := h'
  refine ⟨news ++ news', List.append_assoc .., ?_⟩
  intro x hx
  rcases List.mem_append.mp hx with hx | hx
  · exact hnews x hx
  · exact htarget _ (hnews' x hx)

/-- What an operation may change that is about one connection, or about none. -/
structure Effect (about : Option Nat) (s t : Server PS CP CR) : Prop where
  allocated : t.allocated = s.allocated
  others : ∀ j, about ≠ some j → t.objects j = s.objects j
  added : ∀ j, (t.objects j).added = (s.objects j).added
  sock : ∀ j, (t.conn j).sock = (s.conn j).sock
  table : ∀ {sock j : Nat}, t.readingConnections[sock]? = some j → s.readingConnections[sock]? = some j
  resp : Routed (s.found about) s.respQueue t.respQueue
  custom : Routed (s.found about) s.customRespQueue t.customRespQueue
  phase : t.phase = .deadlocked ∨ t.phase = s.phase

theorem Effect.trans (h : Effect about s t) (h' : Effect about t u) : Effect about s u := by
  have hfound : ∀ i, t.found about = some i → s.found about = some i := by
    intro i hi
    obtain ⟨k, hk, hi⟩ := Option.bind_eq_some_iff.mp hi
    rw [h.sock] at hi
    exact Option.bind_eq_some_iff.mpr ⟨k, hk, h.table hi⟩
  exact ⟨h'.allocated.trans h.allocated, fun j hj => (h'.others j hj).trans (h.others j hj),
    fun j => (h'.added j).trans (h.added j), fun j => (h'.sock j).trans (h.sock j),
    fun ht => h.table (h'.table ht), h.resp.trans h'.resp hfound, h.custom.trans h'.custom hfound,
    h'.phase.elim Or.inl (fun hp => h.phase.imp hp.trans hp.trans)⟩

/-- An operation on the table or the watcher. -/
theorem Effect.quiet (about : Option Nat) (hobj : t.objects = s.objects)
    (halloc : t.allocated = s.allocated) (hresp : t.respQueue = s.respQueue)
    (hcustom : t.customRespQueue = s.customRespQueue) (hphase : t.phase = .deadlocked ∨ t.phase = s.phase)
    (htab : ∀ {sock j : Nat}, t.readingConnections[sock]? = some j → s.readingConnections[sock]? = some j) :
    Effect about s t where
  allocated := halloc
  others := fun _ _ => by rw [hobj]
  added := fun _ => by rw [hobj]
  sock := fun _ => by rw [conn, hobj, conn]
  table := htab
  resp := hresp ▸ Routed.refl _ _
  custom := hcustom ▸ Routed.refl _ _
  phase := hphase

theorem Effect.refl (about : Option Nat) (s : Server PS CP CR) : Effect about s s :=
  .quiet about rfl rfl rfl rfl (.inr rfl) id

theorem Effect.remove (about : Option Nat) (sock : Nat) (s : Server PS CP CR) :
    Effect about s (s.remove sock) := by
  refine .quiet about rfl rfl rfl rfl (.inr rfl) ?_
  intro sock' j ht
  exact getElem?_of_erase ht

theorem Effect.killConnection (about : Option Nat) (sock : Nat) (s : Server PS CP CR) :
    Effect about s (s.killConnection sock) := by
  unfold Server.killConnection
  split
  · exact .quiet about rfl rfl rfl rfl (.inr rfl) id
  · exact .remove about sock s

@[simp] theorem readingConnections_enableEvents (s : Server PS CP CR) (sock : Nat) :
    (s.enableEvents sock).readingConnections = s.readingConnections := by
  unfold Server.enableEvents
  split <;> rfl

@[simp] theorem conn_enableEvents (s : Server PS CP CR) (sock j : Nat) :
    (s.enableEvents sock).conn j = s.conn j := by
  unfold Server.enableEvents
  split <;> rfl

theorem Effect.enableEvents (about : Option Nat) (sock : Nat) (s : Server PS CP CR) :
    Effect about s (s.enableEvents sock) := by
  unfold Server.enableEvents
  split
  · exact .refl about s
  · exact .quiet about rfl rfl rfl rfl (.inr rfl) id

/-- A change of the connection it is about. -/
theorem Effect.modify {f : Object PS CP CR → Object PS CP CR}
    (hadded : (f (s.objects i)).added = (s.objects i).added)
    (hsock : (f (s.objects i)).conn.sock = (s.conn i).sock) : Effect (some i) s (s.modify i f) where
  allocated := rfl
  others := fun _ hj => objects_modify_of_ne f (fun h => hj (congrArg some h.symm))
  added := by
    intro j
    by_cases hj : j = i
    · rw [hj, objects_modify_self, hadded]
    · rw [objects_modify_of_ne f hj]
  sock := by
    intro j
    unfold conn
    by_cases hj : j = i
    · rw [hj, objects_modify_self]
      exact hsock
    · rw [objects_modify_of_ne f hj]
  table := id
  resp := Routed.refl _ _
  custom := Routed.refl _ _
  phase := .inr rfl

theorem Effect.setConn {c : HttpConnection PS CP CR} (hsock : c.sock = (s.conn i).sock) :
    Effect (some i) s (s.setConn i c) := Effect.modify rfl hsock

/-! ## Handlers -/

/-- What a handler's call for the connection at `i` does. -/
structure Handled (i : Nat) (s t : Server PS CP CR) : Prop where
  effect : Effect (some i) s t
  table : t.readingConnections = s.readingConnections
  masks : t.socketsMasks = s.socketsMasks
  undefined : t.undefined = s.undefined
  output : HttpConnection.SameOutput (s.conn i) (t.conn i)

theorem Handled.refl (i : Nat) (s : Server PS CP CR) : Handled i s s :=
  ⟨.refl _ s, rfl, rfl, rfl, .refl _⟩

theorem Handled.trans (h : Handled i s t) (h' : Handled i t u) : Handled i s u :=
  ⟨h.effect.trans h'.effect, h'.table.trans h.table, h'.masks.trans h.masks,
    h'.undefined.trans h.undefined, h.output.trans h'.output⟩

theorem Handled.modify {f : Object PS CP CR → Object PS CP CR}
    (hadded : (f (s.objects i)).added = (s.objects i).added)
    (hconn : HttpConnection.SameOutput (s.conn i) (f (s.objects i)).conn) : Handled i s (s.modify i f) := by
  refine ⟨.modify hadded hconn.sock, rfl, rfl, rfl, ?_⟩
  unfold conn
  rw [objects_modify_self]
  exact hconn

theorem Handled.setConn {c : HttpConnection PS CP CR} (hc : HttpConnection.SameOutput (s.conn i) c) :
    Handled i s (s.setConn i c) := Handled.modify rfl hc

/-- A reply goes to the connection found in the table. -/
theorem Handled.push (hfound : s.found (some i) = some j) (k : Nat) (r : Reply) :
    Handled i s (s.push j k r) := by
  have hobj : (s.push j k r).objects = s.objects := by cases r <;> rfl
  have hone : ∀ {ρ : Type} (q : List (Queued ρ)) (x : Queued ρ), x.conn = j →
      Routed (s.found (some i)) q (q ++ [x]) := by
    intro ρ q x hx
    refine ⟨[x], rfl, fun y hy => ?_⟩
    rw [List.mem_singleton.mp hy, hfound, hx]
  have heffect : Effect (some i) s (s.push j k r) := by
    refine ⟨?_, ?_, ?_, ?_, ?_, ?_, ?_, ?_⟩
    · cases r <;> rfl
    · exact fun _ _ => by rw [hobj]
    · exact fun _ => by rw [hobj]
    · exact fun _ => by rw [conn, hobj, conn]
    · intro sock k' ht
      cases r <;> exact ht
    · cases r with
      | http resp => exact hone _ _ rfl
      | custom bytes => exact Routed.refl _ _
    · cases r with
      | http resp => exact Routed.refl _ _
      | custom bytes => exact hone _ _ rfl
    · cases r <;> exact .inr rfl
  refine ⟨heffect, ?_, ?_, ?_, ?_⟩
  · cases r <;> rfl
  · cases r <;> rfl
  · cases r <;> rfl
  · have hconn : (s.push j k r).conn i = s.conn i := by rw [conn, hobj, conn]
    rw [hconn]
    exact .refl _

theorem handled_addAnswer (i k : Nat) (r : Reply) (s : Server PS CP CR) : Handled i s (s.addAnswer i k r) :=
  Handled.modify rfl (.refl _)

/-- Waiting for the mutex. -/
theorem handled_deadlock (i : Nat) (s : Server PS CP CR) : Handled i s { s with phase := .deadlocked } :=
  ⟨.quiet _ rfl rfl rfl rfl (.inl rfl) id, rfl, rfl, rfl, .refl _⟩

/-- **A reply.** -/
theorem handled_reply (i k : Nat) (r : Reply) (s : Server PS CP CR) : Handled i s (s.reply i k r) := by
  have hanswer := handled_addAnswer i k r s
  rcases reply_cases i k r s with ⟨-, -, heq⟩ | ⟨-, ⟨-, heq⟩ | ⟨j, hj, heq⟩⟩
  · rw [heq]
    exact hanswer.trans (handled_deadlock i _)
  · rw [heq]
    exact hanswer
  · rw [heq]
    refine hanswer.trans (Handled.push ?_ k r)
    show (s.addAnswer i k r).readingConnections[((s.addAnswer i k r).conn i).sock]? = some j
    rw [hanswer.output.sock, hanswer.table]
    exact hj

theorem handled_replies (i k : Nat) (rs : List Reply) (s : Server PS CP CR) :
    Handled i s (s.replies i k rs) := by
  induction rs generalizing s with
  | nil => exact .refl i s
  | cons r rs ih =>
      have hreply := handled_reply i k r s
      unfold replies
      dsimp only
      split
      · exact hreply
      · exact hreply.trans (ih _)

theorem handled_runHandler (i k : Nat) (o : HandlerOutcome) (s : Server PS CP CR) :
    Handled i s (s.runHandler i k o).1 := handled_replies i k o.replies s

/-- An upgrade: the new parser, the handshake, and the flag. -/
theorem handled_upgrade (k : Nat) (handshake : Bytes) {c : HttpConnection PS CP CR}
    (hc : HttpConnection.SameOutput (s.conn i) c) :
    let t := (s.setConn i c).reply i k (.custom handshake)
    Handled i s (t.setConn i { t.conn i with waitingLastHandling := false }) := by
  intro t
  have hreply : Handled i s t := (Handled.setConn hc).trans (handled_reply i k _ _)
  exact hreply.trans (Handled.setConn ⟨rfl, rfl, rfl⟩)

/-- **`handleWaitingRequests`**, whatever the handler does. -/
theorem handled_handleWaitingRequests (lib : Library PS CP CR) (i : Nat) (o : HandlerOutcome)
    (s : Server PS CP CR) : Handled i s (s.handleWaitingRequests lib i o).1 := by
  unfold handleWaitingRequests
  dsimp only
  split
  · exact .refl i s
  · split
    -- an HTTP request
    · rename_i request rest _ _
      have hdispatch : Handled i s (s.dispatch i { s.conn i with httpRequests := rest }) :=
        Handled.modify rfl ⟨rfl, rfl, rfl⟩
      split
      · exact hdispatch.trans (handled_upgrade _ _ ⟨rfl, rfl, rfl⟩)
      · exact hdispatch.trans (handled_runHandler i _ o _)
    -- a request of the custom protocol
    · rename_i rest _ _
      split
      · have hdispatch : Handled i s (s.dispatch i { s.conn i with customRequests := rest }) :=
          Handled.modify rfl ⟨rfl, rfl, rfl⟩
        exact hdispatch.trans (handled_runHandler i _ o _)
      · exact Handled.setConn ⟨rfl, rfl, rfl⟩
    · exact .refl i s

/-! ## Operations of the loop -/

theorem effect_performRecv (lib : Library PS CP CR) (sock : Nat) (rs : List RecvResult) (now : Nat)
    (o : HandlerOutcome) (s : Server PS CP CR) :
    Effect (s.readingConnections[sock]?) s (s.performRecv lib sock rs now o) := by
  unfold performRecv
  split
  · exact .quiet _ rfl rfl rfl rfl (.inr rfl) id
  · rename_i i ht
    have hsame := HttpConnection.performRecv_sameOutput lib rs now (s.conn i)
    generalize (s.conn i).performRecv lib rs now = received at hsame
    obtain ⟨c, threw⟩ := received
    dsimp only at hsame ⊢
    have hset : Effect (some i) s (s.setConn i c) := .setConn hsame.sock
    have hhandle := hset.trans (handled_handleWaitingRequests lib i o (s.setConn i c)).effect
    rw [ht]
    split
    · exact hset.trans (.killConnection _ sock _)
    · split
      · split
        · exact hhandle.trans (.killConnection _ sock _)
        · exact hhandle
      · exact hset.trans (.remove _ sock _)

theorem effect_performSend (sock : Nat) (r : SendResult) (now : Nat) (s : Server PS CP CR) :
    Effect (s.readingConnections[sock]?) s (s.performSend sock r now) := by
  unfold performSend
  split
  · exact .refl _ s
  · rename_i i ht
    have hset : Effect (some i) s (s.setConn i ((s.conn i).performSend r now).1) :=
      .setConn (HttpConnection.performSend_same r now (s.conn i)).sock
    rw [ht]
    dsimp only
    split
    · exact hset.trans (.remove _ sock _)
    · exact hset

theorem effect_handleResponse (lib : Library PS CP CR) (i : Nat) (r : SendResult) (now : Nat)
    (o : HandlerOutcome) (s : Server PS CP CR) : Effect (some i) s (s.handleResponse lib i r now o).1 := by
  unfold handleResponse
  have hsame := HttpConnection.performSend_same r now { s.conn i with waitingLastHandling := false }
  generalize HttpConnection.performSend r now { s.conn i with waitingLastHandling := false } = sent at hsame
  obtain ⟨c, sent⟩ := sent
  dsimp only at hsame ⊢
  have hset : Effect (some i) s (s.setConn i c) := .setConn hsame.sock
  split
  · split
    · exact hset.trans (.quiet _ rfl rfl rfl rfl (.inr rfl) id)
    · exact hset.trans (.remove _ c.sock _)
  · refine Effect.trans (hset.trans ?_) (handled_handleWaitingRequests lib i o _).effect
    split
    · exact .refl _ _
    · exact .enableEvents _ c.sock _

theorem queues_performAccept (lib : Library PS CP CR) (socks : List Nat) (now : Nat)
    (s : Server PS CP CR) : (s.performAccept lib socks now).respQueue = s.respQueue ∧
      (s.performAccept lib socks now).customRespQueue = s.customRespQueue := by
  unfold performAccept
  induction socks generalizing s with
  | nil => exact ⟨rfl, rfl⟩
  | cons sock socks ih => exact ih (s.acceptOne lib now sock)

/-- The end of a round. -/
theorem effect_cleanUp (about : Option Nat) (now : Nat) (s : Server PS CP CR) :
    Effect about { s with phase := .idle } { s.cleanUpDeadConnections now with phase := .idle } := by
  unfold cleanUpDeadConnections
  split
  · exact .refl about _
  · split
    · exact .refl about _
    · exact .quiet about rfl rfl rfl rfl (.inr rfl) id

/-! ## Steps -/

/-- The connection an input is about. -/
def subject (s : Server PS CP CR) : Input → Option Nat
  | .read _ _ _ =>
      match s.phase with
      | .events (.read sock :: _) => s.readingConnections[sock]?
      | _ => none
  | .write _ _ =>
      match s.phase with
      | .events (.write sock :: _) => s.readingConnections[sock]?
      | _ => none
  | .drain _ _ _ => s.front.map Prod.fst
  | _ => none

/-- Popping a reply from its queue. -/
def popReply (q : Reply) (s : Server PS CP CR) : Server PS CP CR :=
  match q with
  | .http _ => { s with respQueue := s.respQueue.tail }
  | .custom _ => { s with customRespQueue := s.customRespQueue.tail }

/-- A step of the draining loops. -/
theorem step_drain {lib : Library PS CP CR} {r : SendResult} {now : Nat} {o : HandlerOutcome}
    (h : s.step lib (.drain r now o) = some t) :
    s.undefined = false ∧ s.phase = .draining ∧ ∃ i q, s.front = some (i, q) ∧
      t = s.drainOne lib i q (popReply q) r now o := by
  unfold step at h
  split at h
  · exact absurd h (by simp)
  · rename_i hu
    refine ⟨Bool.not_eq_true _ ▸ hu, ?_⟩
    cases hphase : s.phase with
    | draining =>
        rw [hphase] at h
        refine ⟨rfl, ?_⟩
        dsimp only at h
        split at h
        · rename_i q rest hq
          exact ⟨_, _, front_http hq, (Option.some.inj h).symm⟩
        · rename_i q rest hr hq
          exact ⟨_, _, front_custom hr hq, (Option.some.inj h).symm⟩
        · exact absurd h (by simp)
    | idle =>
        rw [hphase] at h
        exact absurd h (by simp)
    | events rest =>
        rw [hphase] at h
        exact absurd h (by simp)
    | deadlocked =>
        rw [hphase] at h
        exact absurd h (by simp)

/-- An accept event. -/
theorem step_accept {lib : Library PS CP CR} {socks : List Nat} {now : Nat}
    (h : s.step lib (.accept socks now) = some t) :
    ∃ phase, t = { s with phase := phase }.performAccept lib socks now := by
  unfold step at h
  split at h
  · exact absurd h (by simp)
  · cases hphase : s.phase with
    | events batch =>
        rw [hphase] at h
        cases batch with
        | nil => exact absurd h (by simp)
        | cons n rest =>
            cases n with
            | accept => exact ⟨.events rest, (Option.some.inj h).symm⟩
            | _ => exact absurd h (by simp)
    | _ =>
        rw [hphase] at h
        exact absurd h (by simp)

/-- **What a step can do**: one operation about its subject; accepting; taking a reply from the queues; or
    an answer. -/
theorem step_cases {lib : Library PS CP CR} {input : Input} (h : s.step lib input = some t) :
    (∃ phase, Effect (s.subject input) { s with phase := phase } t) ∨
    (∃ socks now phase, input = .accept socks now ∧
      t = { s with phase := phase }.performAccept lib socks now) ∨
    (∃ r now o i q, input = .drain r now o ∧ s.front = some (i, q) ∧ s.phase = .draining ∧
      t = s.drainOne lib i q (popReply q) r now o) ∨
    ∃ i k r, input = .answer i k r ∧ t = s.reply i k r := by
  have hdrain := h
  unfold step at h
  split at h
  · exact absurd h (by simp)
  · split at h
    · rw [← Option.some.inj h]
      exact Or.inl ⟨_, .refl _ _⟩
    · exact Or.inr (Or.inl ⟨_, _, _, rfl, (Option.some.inj h).symm⟩)
    · rename_i rs now o sock rest hphase
      rw [← Option.some.inj h]
      refine Or.inl ⟨.events rest, ?_⟩
      have heffect := effect_performRecv lib sock rs now o { s with phase := .events rest }
      unfold subject
      rw [hphase]
      exact heffect
    · rename_i r now sock rest hphase
      rw [← Option.some.inj h]
      refine Or.inl ⟨.events rest, ?_⟩
      have heffect := effect_performSend sock r now { s with phase := .events rest }
      unfold subject
      rw [hphase]
      exact heffect
    · rw [← Option.some.inj h]
      exact Or.inl ⟨_, .killConnection _ _ _⟩
    · rw [← Option.some.inj h]
      exact Or.inl ⟨_, .refl _ _⟩
    · obtain ⟨-, hphase, i, q, hfront, heq⟩ := step_drain hdrain
      exact Or.inr (Or.inr (Or.inl ⟨_, _, _, i, q, rfl, hfront, hphase, heq⟩))
    · split at h
      · rw [← Option.some.inj h]
        exact Or.inl ⟨.idle, effect_cleanUp _ _ _⟩
      · exact absurd h (by simp)
    · split at h
      · exact Or.inr (Or.inr (Or.inr ⟨_, _, _, rfl, (Option.some.inj h).symm⟩))
      · exact absurd h (by simp)
    · exact absurd h (by simp)

/-- **One round of draining**: the reply is added and handled; then it is popped, or an exception leaves the
    loops, or the loops stop where they are. The connections are as the handling left them. -/
theorem drainOne_cases (lib : Library PS CP CR) (i : Nat) (q : Reply) (r : SendResult) (now : Nat)
    (o : HandlerOutcome) (s : Server PS CP CR) :
    ∃ u, Effect (some i) (s.addReply lib now i q) u ∧
      (s.drainOne lib i q (popReply q) r now o).objects = u.objects ∧
      (s.drainOne lib i q (popReply q) r now o).allocated = u.allocated ∧
      (s.drainOne lib i q (popReply q) r now o = popReply q u ∨
        ∃ phase, s.drainOne lib i q (popReply q) r now o = { u with phase := phase }) := by
  refine ⟨_, effect_handleResponse lib i r now o (s.addReply lib now i q), ?_⟩
  unfold drainOne
  generalize (s.addReply lib now i q).handleResponse lib i r now o = result
  obtain ⟨u, threw⟩ := result
  dsimp only
  split
  · exact ⟨rfl, rfl, Or.inr ⟨u.phase, rfl⟩⟩
  · split
    · exact ⟨rfl, rfl, Or.inr ⟨.idle, rfl⟩⟩
    · refine ⟨?_, ?_, Or.inl rfl⟩
      · cases q <;> rfl
      · cases q <;> rfl

/-- Adding a reply keeps everything but its connection's output and the record of it. -/
theorem addReply_frame (lib : Library PS CP CR) (now i : Nat) (q : Reply) (s : Server PS CP CR) :
    ∃ c bytes, s.addReply lib now i q =
        s.modify i (fun o => { o with conn := c, added := o.added ++ [(q, bytes)] }) ∧
      c.sock = (s.conn i).sock :=
  (addReply_eq lib now i q s).imp fun _ h => h.imp fun _ h => ⟨h.1, h.2.1⟩

end Server

namespace Program

/-- **What a step of a program can do**: the loop goes on, a handler answers in one of the two ways, or the
    number of pointers to a connection changes. -/
theorem step_cases {lib : Library PS CP CR} {p p' : Program PS CP CR} {input : Input}
    (h : p.step lib input = some p') :
    (∃ loop t, input = .loop loop ∧ p.Admissible loop ∧ p.server.step lib loop = some t ∧
      p' = p.advance t) ∨
    (∃ i k r, input = .reply i k r ∧ 0 < p.pointers i ∧ p.server.undefined = false ∧
      p.server.blocked r = false ∧ p' = { p with server := p.server.reply i k r }) ∨
    (∃ i k resp, input = .sendResponse i k resp ∧ 0 < p.pointers i ∧ p.server.undefined = false ∧
      p' = { p with server := p.server.sendResponse i k resp }) ∨
    ∃ i n, (input = .copy i ∨ input = .drop i) ∧ 0 < p.pointers i ∧
      p' = { p with pointers := Function.update p.pointers i n } := by
  cases input with
  | loop input =>
      refine Or.inl ?_
      simp only [step] at h
      split at h
      · rename_i hadmissible
        obtain ⟨t, ht, rfl⟩ := Option.map_eq_some_iff.mp h
        exact ⟨input, t, rfl, hadmissible, ht, rfl⟩
      · exact absurd h (by simp)
  | reply i k r =>
      refine Or.inr (Or.inl ?_)
      simp only [step] at h
      split at h
      · rename_i hptr
        exact ⟨i, k, r, rfl, hptr.1, hptr.2.1, hptr.2.2, (Option.some.inj h).symm⟩
      · exact absurd h (by simp)
  | sendResponse i k resp =>
      refine Or.inr (Or.inr (Or.inl ?_))
      simp only [step] at h
      split at h
      · rename_i hptr
        exact ⟨i, k, resp, rfl, hptr.1, hptr.2, (Option.some.inj h).symm⟩
      · exact absurd h (by simp)
  | copy i =>
      refine Or.inr (Or.inr (Or.inr ?_))
      simp only [step] at h
      split at h
      · rename_i hptr
        exact ⟨i, _, Or.inl rfl, hptr, (Option.some.inj h).symm⟩
      · exact absurd h (by simp)
  | drop i =>
      refine Or.inr (Or.inr (Or.inr ?_))
      simp only [step] at h
      split at h
      · rename_i hptr
        exact ⟨i, _, Or.inr rfl, hptr, (Option.some.inj h).symm⟩
      · exact absurd h (by simp)

end Program

end HttpServer
end Hiaux
