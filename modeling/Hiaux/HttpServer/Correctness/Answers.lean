import Hiaux.HttpServer.Correctness.Effects
import Hiaux.Lib.Lookup

/-!
# `HttpServer.Correctness.Answers` — what answering does, and what answers nothing

Answers to a request are recorded and, as long as the connection is in the table and the mutex is free,
queued for it (`Answers`). All other operations leave the record and the queues alone and raise no flag
(`Still`), except for the dispatch of a request and the popping of an answer.
-/

namespace Hiaux

open Lib Network

namespace HttpServer

variable {PS CP CR : Type}

namespace Server

variable {about : Option Nat} {s t : Server PS CP CR} {i j k : Nat}

/-! ## What answers do -/

theorem length_entries_push_self (k : Nat) (r : Reply) (s : Server PS CP CR) :
    ((s.push i k r).entries i).length = (s.entries i).length + 1 := by
  cases r
  · simp [push, entries, List.filter_append]
    omega
  · simp [push, entries, List.filter_append]
    omega

/-- The answer that `popReply` takes is one for the connection at `i`. -/
def Pops (i : Nat) (q : Reply) (s : Server PS CP CR) : Prop :=
  match q with
  | .http _ => ∃ x rest, s.respQueue = x :: rest ∧ x.conn = i
  | .custom _ => ∃ x rest, s.customRespQueue = x :: rest ∧ x.conn = i

theorem length_entries_popReply {q : Reply} (h : s.Pops i q) (j : Nat) :
    (s.entries j).length = ((popReply q s).entries j).length + if j = i then 1 else 0 := by
  cases q with
  | http resp =>
      obtain ⟨x, rest, hx, rfl⟩ := h
      by_cases hj : j = x.conn
      · simp [popReply, entries, hx, hj, Nat.add_right_comm]
      · simp [popReply, entries, hx, hj, Ne.symm hj]
  | custom bytes =>
      obtain ⟨x, rest, hx, rfl⟩ := h
      by_cases hj : j = x.conn
      · simp [popReply, entries, hx, hj]
        omega
      · simp [popReply, entries, hx, hj, Ne.symm hj]

/-- The queues have only grown since the answer was at the front. -/
theorem Effect.pops (h : Effect about s t) {q : Reply} (hfront : s.front = some (i, q)) : t.Pops i q := by
  obtain ⟨news, hresp, -⟩ := h.resp
  obtain ⟨news', hcustom, -⟩ := h.custom
  rcases front_cases hfront with ⟨x, rest, hx, rfl, rfl⟩ | ⟨x, rest, -, hx, rfl, rfl⟩
  · exact ⟨x, rest ++ news, by rw [hresp, hx, List.cons_append], rfl⟩
  · exact ⟨x, rest ++ news', by rw [hcustom, hx, List.cons_append], rfl⟩

theorem length_entries_of_front {q : Reply} (hfront : s.front = some (i, q)) :
    0 < (s.entries i).length := by
  have hpop := length_entries_popReply ((Effect.refl none s).pops hfront) i
  rw [if_pos rfl] at hpop
  omega

theorem objects_dispatch_self (i : Nat) (c : HttpConnection PS CP CR) (s : Server PS CP CR) :
    (s.dispatch i c).objects i = { s.objects i with
      conn := { c with waitingLastHandling := true }
      dispatched := (s.objects i).dispatched + 1 } := objects_modify_self _

/-- Queues only grow. -/
theorem Effect.length_entries_le (h : Effect about s t) (j : Nat) :
    (s.entries j).length ≤ (t.entries j).length := by
  obtain ⟨news, hresp, -⟩ := h.resp
  obtain ⟨news', hcustom, -⟩ := h.custom
  simp only [entries, hresp, hcustom, List.filter_append, List.map_append, List.length_append]
  omega

/-- What the answers `rs` to request `k` of the connection at `i` do: they are recorded, and if they do not
    have to wait for the mutex and the connection is in the table, they are queued for it. -/
structure Answers (i k : Nat) (rs : List Reply) (s t : Server PS CP CR) : Prop where
  handled : Handled i s t
  conn : t.conn i = s.conn i
  dispatched : (t.objects i).dispatched = (s.objects i).dispatched
  answers : ∃ given : List Reply,
    (t.objects i).answers = (s.objects i).answers ++ given.map (fun r => (k, r)) ∧
      (rs ≠ [] → given ≠ [])
  queued : rs ≠ [] → t.phase ≠ .deadlocked → t.InTable i → (s.entries i).length < (t.entries i).length

theorem answers_reply (i k : Nat) (r : Reply) (s : Server PS CP CR) : Answers i k [r] s (s.reply i k r) := by
  have hhandled := handled_reply i k r s
  have hself : (s.addAnswer i k r).objects i =
      { s.objects i with answers := (s.objects i).answers ++ [(k, r)] } := objects_modify_self _
  have hobj : (s.reply i k r).objects i = (s.addAnswer i k r).objects i := by
    rcases reply_cases i k r s with ⟨-, -, heq⟩ | ⟨-, ⟨-, heq⟩ | ⟨j, -, heq⟩⟩
    · rw [heq]
    · rw [heq]
    · rw [heq]
      cases r <;> rfl
  refine ⟨hhandled, ?_, ?_, ⟨[r], ?_, fun _ => by simp⟩, fun _ hphase htab => ?_⟩
  · rw [Server.conn, hobj, hself, Server.conn]
  · rw [hobj, hself]
  · rw [hobj, hself]
    rfl
  · have hfound : s.readingConnections[(s.conn i).sock]? = some i := by
      rw [InTable, hhandled.table, hhandled.output.sock] at htab
      exact htab
    rcases reply_cases i k r s with ⟨-, -, heq⟩ | ⟨-, ⟨hnone, -⟩ | ⟨j, hj, heq⟩⟩
    · rw [heq] at hphase
      exact absurd rfl hphase
    · exact absurd (hnone.symm.trans hfound) (by simp)
    · obtain rfl := Option.some.inj (hj.symm.trans hfound)
      rw [heq, length_entries_push_self]
      exact Nat.lt_succ_self _

theorem answers_replies (i k : Nat) (rs : List Reply) (s : Server PS CP CR) :
    Answers i k rs s (s.replies i k rs) := by
  induction rs generalizing s with
  | nil =>
      exact ⟨.refl i s, rfl, rfl, ⟨[], by simp [replies], fun h => absurd rfl h⟩, fun h => absurd rfl h⟩
  | cons r rs ih =>
      have hone := answers_reply i k r s
      have hrest := ih (s.reply i k r)
      unfold replies
      dsimp only
      split
      -- the first answer waits for the mutex
      · rename_i hdead
        obtain ⟨given, hgiven, hne⟩ := hone.answers
        exact ⟨hone.handled, hone.conn, hone.dispatched, ⟨given, hgiven, fun _ => hne (by simp)⟩,
          fun _ hphase => absurd hdead hphase⟩
      · rename_i halive
        obtain ⟨given, hgiven, hne⟩ := hone.answers
        obtain ⟨given', hgiven', -⟩ := hrest.answers
        refine ⟨hone.handled.trans hrest.handled, hrest.conn.trans hone.conn,
          hrest.dispatched.trans hone.dispatched, ⟨given ++ given', ?_, fun _ => ?_⟩, fun _ _ htab => ?_⟩
        · rw [hgiven', hgiven, List.map_append, List.append_assoc]
        · exact fun h => hne (by simp) (List.append_eq_nil_iff.mp h).1
        · have htab' : (s.reply i k r).InTable i := by
            rw [InTable, hrest.handled.table, hrest.handled.output.sock] at htab
            exact htab
          exact Nat.lt_of_lt_of_le (hone.queued (by simp) halive htab')
            (hrest.handled.effect.length_entries_le i)

end Server

/-! ## The requests of a connection -/

namespace HttpConnection

/-- What an operation leaves alone that looks at no requests. -/
structure SameRequests (c c' : HttpConnection PS CP CR) : Prop where
  customProtocol : c'.customProtocol = c.customProtocol
  customProtocolId : c'.customProtocolId = c.customProtocolId
  httpRequests : c'.httpRequests = c.httpRequests
  customRequests : c'.customRequests = c.customRequests

theorem sendBuffered_sameRequests (r : SendResult) (now : Nat) (c : HttpConnection PS CP CR) :
    SameRequests c (sendBuffered r now c).1 := by
  unfold sendBuffered
  cases r with
  | fatal => exact ⟨rfl, rfl, rfl, rfl⟩
  | again => exact ⟨rfl, rfl, rfl, rfl⟩
  | accepted n =>
      dsimp only
      split
      · exact ⟨rfl, rfl, rfl, rfl⟩
      · split <;> exact ⟨rfl, rfl, rfl, rfl⟩

theorem performSend_sameRequests (r : SendResult) (now : Nat) (c : HttpConnection PS CP CR) :
    SameRequests c (c.performSend r now).1 := by
  unfold performSend
  split
  · split
    · exact ⟨rfl, rfl, rfl, rfl⟩
    · split
      · exact ⟨rfl, rfl, rfl, rfl⟩
      · obtain ⟨h, h', h'', h'''⟩ := sendBuffered_sameRequests r now { c with sendBuffer := _, resps := _ }
        exact ⟨h, h', h'', h'''⟩
  · exact sendBuffered_sameRequests r now c

/-- A connection has custom requests only if it is upgraded, and then to a protocol that the server
    knows. -/
structure Upgraded (lib : Library PS CP CR) (c : HttpConnection PS CP CR) : Prop where
  known : c.customProtocol = true → (lib.customProtocols c.customProtocolId).isSome = true
  requests : c.customRequests ≠ [] → c.customProtocol = true

theorem Upgraded.same {lib : Library PS CP CR} {c c' : HttpConnection PS CP CR} (h : Upgraded lib c)
    (hs : SameRequests c c') : Upgraded lib c' := by
  refine ⟨fun hc => ?_, fun hr => ?_⟩
  · rw [hs.customProtocolId]
    exact h.known (hs.customProtocol.symm.trans hc)
  · rw [hs.customProtocol]
    exact h.requests (hs.customRequests ▸ hr)

/-- Only an upgraded connection reads custom requests. -/
theorem Upgraded.performRecv {lib : Library PS CP CR} {c : HttpConnection PS CP CR} (h : Upgraded lib c)
    (rs : List RecvResult) (now : Nat) : Upgraded lib (c.performRecv lib rs now).1 := by
  unfold HttpConnection.performRecv
  split
  · exact ⟨h.known, h.requests⟩
  · split
    · rename_i hcustom
      split
      · exact h
      · exact ⟨h.known, fun _ => hcustom⟩
    · unfold receiveHttp
      dsimp only
      split <;> split <;> exact ⟨h.known, h.requests⟩

end HttpConnection

/-! ## Operations that answer nothing -/

/-- A connection on which nothing is dispatched or answered, and no flag raised. -/
structure Object.Still (lib : Library PS CP CR) (o o' : Object PS CP CR) : Prop where
  dispatched : o'.dispatched = o.dispatched
  answers : o'.answers = o.answers
  sock : o'.conn.sock = o.conn.sock
  waiting : o'.conn.waitingLastHandling = true → o.conn.waitingLastHandling = true
  upgraded : o.conn.Upgraded lib → o'.conn.Upgraded lib

theorem Object.Still.refl (lib : Library PS CP CR) (o : Object PS CP CR) : o.Still lib o :=
  ⟨rfl, rfl, rfl, id, id⟩

theorem Object.Still.trans {lib : Library PS CP CR} {a b c : Object PS CP CR} (h : a.Still lib b)
    (h' : b.Still lib c) : a.Still lib c :=
  ⟨h'.dispatched.trans h.dispatched, h'.answers.trans h.answers, h'.sock.trans h.sock,
    fun hw => h.waiting (h'.waiting hw), fun hu => h'.upgraded (h.upgraded hu)⟩

namespace Server

variable {lib : Library PS CP CR} {s t u : Server PS CP CR} {i : Nat}

/-- An operation that dispatches nothing, answers nothing and raises no flag. -/
structure Still (lib : Library PS CP CR) (s t : Server PS CP CR) : Prop where
  allocated : t.allocated = s.allocated
  objects : ∀ j, (s.objects j).Still lib (t.objects j)
  table : ∀ {sock j : Nat}, t.readingConnections[sock]? = some j → s.readingConnections[sock]? = some j
  entries : ∀ j, t.entries j = s.entries j
  phase : s.phase = .deadlocked → t.phase = .deadlocked

theorem Still.trans (h : Still lib s t) (h' : Still lib t u) : Still lib s u :=
  ⟨h'.allocated.trans h.allocated, fun j => (h.objects j).trans (h'.objects j),
    fun ht => h.table (h'.table ht), fun j => (h'.entries j).trans (h.entries j),
    fun hp => h'.phase (h.phase hp)⟩

theorem Still.pending (h : Still lib s t) {j k : Nat} : t.Pending j k ↔ s.Pending j k := by
  unfold Pending
  rw [h.allocated, (h.objects j).dispatched, (h.objects j).answers]

theorem Still.inTable (h : Still lib s t) {j : Nat} (hj : t.InTable j) : s.InTable j := by
  have hsock : (t.conn j).sock = (s.conn j).sock := (h.objects j).sock
  rw [InTable, hsock] at hj
  exact h.table hj

/-- An operation on the table, the watcher or the loop. -/
theorem Still.quiet (hobj : t.objects = s.objects) (halloc : t.allocated = s.allocated)
    (hresp : t.respQueue = s.respQueue) (hcustom : t.customRespQueue = s.customRespQueue)
    (hphase : s.phase = .deadlocked → t.phase = .deadlocked)
    (htab : ∀ {sock j : Nat}, t.readingConnections[sock]? = some j → s.readingConnections[sock]? = some j) :
    Still lib s t where
  allocated := halloc
  objects := fun _ => by rw [hobj]; exact .refl lib _
  table := htab
  entries := fun _ => by rw [Server.entries, hresp, hcustom, Server.entries]
  phase := hphase

theorem Still.refl (lib : Library PS CP CR) (s : Server PS CP CR) : Still lib s s :=
  .quiet rfl rfl rfl rfl id id

theorem still_remove (lib : Library PS CP CR) (sock : Nat) (s : Server PS CP CR) :
    Still lib s (s.remove sock) := .quiet rfl rfl rfl rfl id getElem?_of_erase

theorem still_killConnection (lib : Library PS CP CR) (sock : Nat) (s : Server PS CP CR) :
    Still lib s (s.killConnection sock) := by
  unfold killConnection
  split
  · exact .quiet rfl rfl rfl rfl id id
  · exact still_remove lib sock s

theorem still_enableEvents (lib : Library PS CP CR) (sock : Nat) (s : Server PS CP CR) :
    Still lib s (s.enableEvents sock) := by
  unfold enableEvents
  split
  · exact .refl lib s
  · exact .quiet rfl rfl rfl rfl id id

/-- A change of an object. -/
theorem still_modify {f : Object PS CP CR → Object PS CP CR}
    (hf : (s.objects i).Still lib (f (s.objects i))) : Still lib s (s.modify i f) := by
  refine ⟨rfl, fun j => ?_, id, fun _ => rfl, id⟩
  by_cases hj : j = i
  · rw [hj, objects_modify_self]
    exact hf
  · rw [objects_modify_of_ne f hj]
    exact .refl lib _

/-- A change of a connection. -/
theorem still_setConn {c : HttpConnection PS CP CR} (hsock : c.sock = (s.conn i).sock)
    (hwait : c.waitingLastHandling = true → (s.conn i).waitingLastHandling = true)
    (hup : (s.conn i).Upgraded lib → c.Upgraded lib) : Still lib s (s.setConn i c) :=
  still_modify ⟨rfl, rfl, hsock, hwait, hup⟩

/-- A reply that is added to its connection. -/
theorem still_addReply (lib : Library PS CP CR) (now i : Nat) (r : Reply) (s : Server PS CP CR) :
    Still lib s (s.addReply lib now i r) := by
  unfold addReply
  cases r with
  | http resp => exact still_modify ⟨rfl, rfl, rfl, id, fun h => ⟨h.known, h.requests⟩⟩
  | custom bytes => exact still_modify ⟨rfl, rfl, rfl, id, fun h => ⟨h.known, h.requests⟩⟩

theorem still_performSend (lib : Library PS CP CR) (sock : Nat) (r : SendResult) (now : Nat)
    (s : Server PS CP CR) : Still lib s (s.performSend sock r now) := by
  unfold performSend
  split
  · exact .refl lib s
  · rename_i i _
    have hsame := HttpConnection.performSend_same r now (s.conn i)
    have hset : Still lib s (s.setConn i ((s.conn i).performSend r now).1) :=
      still_setConn hsame.sock (fun hw => hsame.waiting ▸ hw)
        (fun hu => hu.same (HttpConnection.performSend_sameRequests r now _))
    dsimp only
    split
    · exact hset.trans (still_remove lib sock _)
    · exact hset

/-- The end of a round. -/
theorem still_cleanUp (lib : Library PS CP CR) (now : Nat) (s : Server PS CP CR)
    (hs : s.phase ≠ .deadlocked) : Still lib s { s.cleanUpDeadConnections now with phase := .idle } := by
  unfold cleanUpDeadConnections
  split
  · exact .quiet rfl rfl rfl rfl (fun hd => absurd hd hs) id
  · split
    · exact .quiet rfl rfl rfl rfl (fun hd => absurd hd hs) id
    · exact .quiet rfl rfl rfl rfl (fun hd => absurd hd hs) id

end Server

end HttpServer

end Hiaux
