import Hiaux.HttpServer.Correctness.Dispatch
import Hiaux.HttpServer.Correctness.Messages

/-!
# `HttpServer.Correctness.Lock` — when the loop waits for the mutex it holds

The loop holds `m_sendq_mtx` while it drains the response queues, and `handleResponse` dispatches the next
request of the connection from inside. A handler called there that answers with `sendResponse` before it
returns makes the loop's thread take the mutex a second time. This is the only way: `LocksAgain` says it of
a step, and a run gets stuck exactly when one of its steps is such (`never_reenters_lock_iff`).
-/

namespace Hiaux
namespace HttpServer

open Lib Network

variable {PS CP CR : Type}

/-- An answer that takes the mutex. -/
def Reply.isHttp : Reply → Bool
  | .http _ => true
  | .custom _ => false

/-- The handler calls `sendResponse` before it returns. -/
def HandlerOutcome.answersHttp (o : HandlerOutcome) : Bool := o.replies.any Reply.isHttp

/-- The next request of a connection would go to a handler: there is one, and it is not an upgrade, and if
    it is one of a custom protocol, that protocol is known. -/
def HttpConnection.nextHandled (lib : Library PS CP CR) (c : HttpConnection PS CP CR) : Bool :=
  match c.customProtocol, c.httpRequests, c.customRequests with
  | false, request :: _, _ => (Server.getCustomParser lib request).isNone
  | _, _, _ :: _ => (lib.customProtocols c.customProtocolId).isSome
  | _, _, [] => false

theorem HttpConnection.performSend_nextHandled (lib : Library PS CP CR) (r : SendResult) (now : Nat)
    (c : HttpConnection PS CP CR) : (c.performSend r now).1.nextHandled lib = c.nextHandled lib := by
  have hbuffered : ∀ c : HttpConnection PS CP CR,
      (sendBuffered r now c).1.nextHandled lib = c.nextHandled lib := by
    intro c
    unfold sendBuffered
    cases r with
    | fatal => rfl
    | again => rfl
    | accepted n =>
        dsimp only
        split
        · rfl
        · split <;> rfl
  unfold performSend
  split
  · split
    · rfl
    · split
      · rfl
      · exact hbuffered _
  · exact hbuffered c

namespace Server

variable {s s' : Server PS CP CR} {i : Nat}

/-! ## Which steps take the mutex again -/

/-- The answer at the front of the queues. -/
def front (s : Server PS CP CR) : Option (Nat × Reply) :=
  match s.respQueue, s.customRespQueue with
  | q :: _, _ => some (q.conn, .http q.resp)
  | [], q :: _ => some (q.conn, .custom q.resp)
  | [], [] => none

theorem front_http {q : Queued HttpResponse} {rest : List (Queued HttpResponse)}
    (h : s.respQueue = q :: rest) : s.front = some (q.conn, .http q.resp) := by
  unfold front
  rw [h]

theorem front_custom {q : Queued Bytes} {rest : List (Queued Bytes)} (hnil : s.respQueue = [])
    (h : s.customRespQueue = q :: rest) : s.front = some (q.conn, .custom q.resp) := by
  unfold front
  rw [hnil, h]

/-- Which queue the front is of. -/
theorem front_cases {q : Reply} (h : s.front = some (i, q)) :
    (∃ x rest, s.respQueue = x :: rest ∧ x.conn = i ∧ q = .http x.resp) ∨
      ∃ x rest, s.respQueue = [] ∧ s.customRespQueue = x :: rest ∧ x.conn = i ∧ q = .custom x.resp := by
  unfold front at h
  split at h
  · rename_i x rest hx
    obtain ⟨rfl, rfl⟩ := Prod.mk.inj (Option.some.inj h)
    exact Or.inl ⟨x, rest, hx, rfl, rfl⟩
  · rename_i x rest hnil hx
    obtain ⟨rfl, rfl⟩ := Prod.mk.inj (Option.some.inj h)
    exact Or.inr ⟨x, rest, hnil, hx, rfl, rfl⟩
  · exact absurd h (by simp)

/-- The connection is still open after the send that follows an added answer. -/
def survives (lib : Library PS CP CR) (i : Nat) (q : Reply) (r : SendResult) (now : Nat)
    (s : Server PS CP CR) : Bool :=
  let (c, sent) := { (s.addReply lib now i q).conn i with waitingLastHandling := false }.performSend r now
  sent || c.notDead now

/-- A draining step on a connection that stays open and whose next request goes to a handler that calls
    `sendResponse` before it returns. -/
def LocksAgain (lib : Library PS CP CR) (s : Server PS CP CR) : Input → Prop
  | .drain r now o =>
      s.undefined = false ∧ s.phase = .draining ∧ ∃ i q, s.front = some (i, q) ∧
        s.survives lib i q r now = true ∧ (s.conn i).nextHandled lib = true ∧ o.answersHttp = true
  | _ => False

/-! ## Where operations leave the loop -/

theorem phase_reply (i k : Nat) (r : Reply) (s : Server PS CP CR) :
    (s.reply i k r).phase = if r.isHttp = true ∧ s.phase = .draining then .deadlocked else s.phase := by
  rcases reply_cases i k r s with ⟨⟨resp, rfl⟩, hp, heq⟩ | ⟨hp, hrest⟩
  · rw [heq, if_pos ⟨rfl, hp⟩]
  · have hnot : ¬ (r.isHttp = true ∧ s.phase = .draining) := by
      rintro ⟨hr, hd⟩
      cases r with
      | http resp => exact hp resp rfl hd
      | custom bytes => exact absurd hr (by simp [Reply.isHttp])
    rw [if_neg hnot]
    rcases hrest with ⟨-, heq⟩ | ⟨j, -, heq⟩
    · rw [heq]
      rfl
    · rw [heq]
      cases r <;> rfl

theorem phase_replies (i k : Nat) (rs : List Reply) (s : Server PS CP CR) (hs : s.phase ≠ .deadlocked) :
    (s.replies i k rs).phase =
      if rs.any Reply.isHttp = true ∧ s.phase = .draining then .deadlocked else s.phase := by
  induction rs generalizing s with
  | nil => simp [replies]
  | cons r rs ih =>
      have hr := phase_reply i k r s
      unfold replies
      dsimp only
      -- the first HTTP reply decides; custom replies before it do not matter
      by_cases hd : s.phase = .draining
      · cases hh : r.isHttp with
        | true =>
            rw [if_pos ⟨hh, hd⟩] at hr
            rw [if_pos hr, hr, if_pos ⟨by simp [hh], hd⟩]
        | false =>
            rw [if_neg (by simp [hh])] at hr
            rw [if_neg (by rw [hr]; exact hs), ih _ (by rw [hr]; exact hs), hr]
            simp [hh]
      · rw [if_neg (fun h => hd h.2)] at hr
        rw [if_neg (by rw [hr]; exact hs), ih _ (by rw [hr]; exact hs), hr, if_neg (fun h => hd h.2),
          if_neg (fun h => hd h.2)]

theorem phase_runHandler (i k : Nat) (o : HandlerOutcome) (s : Server PS CP CR)
    (hs : s.phase ≠ .deadlocked) :
    (s.runHandler i k o).1.phase =
      if o.answersHttp = true ∧ s.phase = .draining then .deadlocked else s.phase :=
  phase_replies i k o.replies s hs

theorem phase_handleWaitingRequests (lib : Library PS CP CR) (i : Nat) (o : HandlerOutcome)
    (s : Server PS CP CR) (hs : s.phase ≠ .deadlocked) :
    (s.handleWaitingRequests lib i o).1.phase =
      if ((s.conn i).waitingLastHandling = false ∧ (s.conn i).nextHandled lib = true) ∧
        o.answersHttp = true ∧ s.phase = .draining then .deadlocked else s.phase := by
  unfold handleWaitingRequests
  dsimp only
  split
  · rename_i hwait
    rw [if_neg (by simp [hwait])]
  · rename_i hwait
    rw [Bool.not_eq_true] at hwait
    split
    -- an HTTP request
    · rename_i request rest hc hr
      have hnext : (s.conn i).nextHandled lib = (getCustomParser lib request).isNone := by
        unfold HttpConnection.nextHandled
        rw [hc, hr]
      have hd : (s.dispatch i { s.conn i with httpRequests := rest }).phase = s.phase := rfl
      split
      · rename_i protocol cp handshake hup
        rw [if_neg (by simp [hnext, hup])]
        exact (phase_reply _ _ _ _).trans (if_neg (by simp [Reply.isHttp]))
      · rename_i hup
        rw [phase_runHandler _ _ _ _ (by rw [hd]; exact hs), hd]
        simp [hwait, hnext, hup]
    -- a request of the custom protocol
    · rename_i rest hr hc
      have hnext : (s.conn i).nextHandled lib =
          (lib.customProtocols (s.conn i).customProtocolId).isSome := by
        unfold HttpConnection.nextHandled
        split
        · rename_i hc' hr'
          exact absurd (hc _ _ hc' hr') id
        · rfl
        · rename_i hr' _
          exact absurd (hr.symm.trans hr') (by simp)
      split
      · rename_i hknown
        have hd : (s.dispatch i { s.conn i with customRequests := rest }).phase = s.phase := rfl
        rw [phase_runHandler _ _ _ _ (by rw [hd]; exact hs), hd]
        simp [hwait, hnext, hknown]
      · rename_i hknown
        rw [if_neg (by simp [hnext, hknown])]
        rfl
    · rename_i hr hc
      have hnext : (s.conn i).nextHandled lib = false := by
        unfold HttpConnection.nextHandled
        split
        · rename_i hc' hr'
          exact absurd (hc _ _ hc' hr') id
        · rename_i hr' _
          exact absurd (hr.symm.trans hr') (by simp)
        · rfl
      rw [if_neg (by simp [hnext])]

theorem phase_handleResponse (lib : Library PS CP CR) (i : Nat) (r : SendResult) (now : Nat)
    (o : HandlerOutcome) (s : Server PS CP CR) (hs : s.phase = .draining) :
    ((s.handleResponse lib i r now o).1.phase = .deadlocked ↔
      let (c, sent) := { s.conn i with waitingLastHandling := false }.performSend r now
      (sent || c.notDead now) = true ∧ (s.conn i).nextHandled lib = true ∧ o.answersHttp = true) := by
  have hwait := (HttpConnection.performSend_same r now
    { s.conn i with waitingLastHandling := false }).waiting
  have hnext : (HttpConnection.performSend r now
      { s.conn i with waitingLastHandling := false }).1.nextHandled lib = (s.conn i).nextHandled lib :=
    HttpConnection.performSend_nextHandled lib r now _
  unfold handleResponse
  generalize HttpConnection.performSend r now { s.conn i with waitingLastHandling := false } = result
    at hwait hnext ⊢
  obtain ⟨c, sent⟩ := result
  dsimp only at hwait hnext ⊢
  by_cases hdead : (!sent && !c.notDead now) = true
  -- the connection is taken out; nothing is dispatched
  · have hgone : (sent || c.notDead now) = false := by
      cases sent <;> simp_all
    rw [if_pos hdead, hgone]
    have hkeep : (s.setConn i c).phase = s.phase := rfl
    split
    · simp [delSocket, hkeep, hs]
    · simp [Server.remove, delSocket, hkeep, hs]
  · have halive : (sent || c.notDead now) = true := by
      cases sent <;> simp_all
    rw [if_neg hdead, halive]
    have hkept : ∀ t : Server PS CP CR, t = (if sent then s.setConn i c else
        (s.setConn i c).enableEvents c.sock) → t.phase = .draining ∧ t.conn i = c := by
      rintro t rfl
      unfold enableEvents
      split
      · exact ⟨hs, conn_setConn_self c⟩
      · split <;> exact ⟨hs, conn_setConn_self c⟩
    generalize (if sent then s.setConn i c else (s.setConn i c).enableEvents c.sock) = t at hkept ⊢
    obtain ⟨hp, hc⟩ := hkept t rfl
    rw [phase_handleWaitingRequests lib i o t (by rw [hp]; simp), hc, hp, hnext, hwait]
    simp

/-! ## One step -/

/-- A step of the draining loops gets stuck exactly if it takes the mutex again. -/
theorem drain_deadlocked_iff {lib : Library PS CP CR} {r : SendResult} {now : Nat} {o : HandlerOutcome}
    (hu : s.undefined = false) (hs : s.phase = .draining)
    (hstep : s.step lib (.drain r now o) = some s') :
    s'.phase = .deadlocked ↔ s.LocksAgain lib (.drain r now o) := by
  have hone : ∀ (i : Nat) (q : Reply) (pop : Server PS CP CR → Server PS CP CR),
      (∀ t, (pop t).phase = t.phase) → s.front = some (i, q) →
      ((s.drainOne lib i q pop r now o).phase = .deadlocked ↔ s.LocksAgain lib (.drain r now o)) := by
    intro i q pop hpop hfront
    have hadd : (s.addReply lib now i q).phase = .draining := by
      cases q <;> exact hs
    have hnext : ((s.addReply lib now i q).conn i).nextHandled lib = (s.conn i).nextHandled lib := by
      unfold conn addReply
      cases q <;> rw [objects_modify_self] <;> rfl
    have hresp := phase_handleResponse lib i r now o (s.addReply lib now i q) hadd
    rw [hnext] at hresp
    -- the front of the queues is the answer this round takes
    have hlocks : s.LocksAgain lib (.drain r now o) ↔ s.survives lib i q r now = true ∧
        (s.conn i).nextHandled lib = true ∧ o.answersHttp = true := by
      constructor
      · rintro ⟨-, -, j, q', hfront', h⟩
        obtain ⟨rfl, rfl⟩ := Prod.mk.inj (Option.some.inj (hfront.symm.trans hfront'))
        exact h
      · intro h
        exact ⟨hu, hs, i, q, hfront, h⟩
    rw [hlocks]
    -- popping the answer, or leaving the loop on an exception, keeps the phase or makes it idle
    refine Iff.trans ?_ hresp
    unfold drainOne
    generalize (s.addReply lib now i q).handleResponse lib i r now o = result
    obtain ⟨t, threw⟩ := result
    dsimp only
    by_cases hstop : (t.undefined || decide (t.phase = .deadlocked)) = true
    · rw [if_pos hstop]
    · have ht : t.phase ≠ .deadlocked := by
        intro hp
        exact hstop (by simp [hp])
      rw [if_neg hstop]
      split
      · simp [ht]
      · rw [hpop]
  unfold step at hstep
  rw [if_neg (by simp [hu]), hs] at hstep
  dsimp only at hstep
  split at hstep
  · rename_i q rest hq
    rw [← Option.some.inj hstep]
    exact hone q.conn (.http q.resp) _ (fun _ => rfl) (front_http hq)
  · rename_i q rest hr hq
    rw [← Option.some.inj hstep]
    exact hone q.conn (.custom q.resp) _ (fun _ => rfl) (front_custom hr hq)
  · exact absurd hstep (by simp)

theorem phase_killConnection (sock : Nat) (s : Server PS CP CR) :
    (s.killConnection sock).phase = s.phase := by
  unfold killConnection
  split <;> rfl

/-- A socket event leaves the loop where it is: the mutex is not held. -/
theorem phase_performRecv (lib : Library PS CP CR) (sock : Nat) (rs : List RecvResult) (now : Nat)
    (o : HandlerOutcome) {rest : List Notification} (hs : s.phase = .events rest) :
    (s.performRecv lib sock rs now o).phase = .events rest := by
  unfold performRecv
  split
  · exact hs
  · rename_i i _
    generalize (s.conn i).performRecv lib rs now = received
    obtain ⟨c, threw⟩ := received
    dsimp only
    have hset : (s.setConn i c).phase = .events rest := hs
    have hhandle : ((s.setConn i c).handleWaitingRequests lib i o).1.phase = .events rest := by
      rw [phase_handleWaitingRequests _ _ _ _ (by rw [hset]; simp), if_neg (by simp [hset]), hset]
    split
    · rw [phase_killConnection, hset]
    · split
      · split
        · rw [phase_killConnection, hhandle]
        · exact hhandle
      · exact hset

theorem phase_performSend (sock : Nat) (r : SendResult) (now : Nat) (s : Server PS CP CR) :
    (s.performSend sock r now).phase = s.phase := by
  unfold performSend
  split
  · rfl
  · dsimp only
    split <;> rfl

theorem phase_performAccept (lib : Library PS CP CR) (socks : List Nat) (now : Nat)
    (s : Server PS CP CR) : (s.performAccept lib socks now).phase = s.phase := by
  unfold performAccept
  induction socks generalizing s with
  | nil => rfl
  | cons sock socks ih => exact ih (s.acceptOne lib now sock)

/-- A round of draining is taken while there is something in the queues. -/
theorem exists_step_drain (lib : Library PS CP CR) {q : Reply} (hu : s.undefined = false)
    (hp : s.phase = .draining) (hfront : s.front = some (i, q)) (r : SendResult) (now : Nat)
    (o : HandlerOutcome) : ∃ t, s.step lib (.drain r now o) = some t := by
  unfold step
  rw [if_neg (by simp [hu]), hp]
  dsimp only
  rcases front_cases hfront with ⟨x, rest, hx, -⟩ | ⟨x, rest, hnil, hx, -⟩
  · rw [hx]
    exact ⟨_, rfl⟩
  · rw [hnil, hx]
    exact ⟨_, rfl⟩

/-- **A step takes the mutex again exactly if `LocksAgain` says so.** -/
theorem step_deadlocked_iff {lib : Library PS CP CR} {input : Input} (hs : s.phase ≠ .deadlocked) :
    (∀ t, s.step lib input = some t → t.phase ≠ .deadlocked) ↔ ¬ s.LocksAgain lib input := by
  by_cases hdrain : ∃ r now o, input = .drain r now o
  · obtain ⟨r, now, o, rfl⟩ := hdrain
    constructor
    · intro h hlocks
      have hlocks' := hlocks
      obtain ⟨hu, hp, i, q, hfront, -⟩ := hlocks'
      obtain ⟨t, ht⟩ := exists_step_drain lib hu hp hfront r now o
      exact h t ht ((drain_deadlocked_iff hu hp ht).mpr hlocks)
    · intro hlocks t ht hdead
      have hfits : s.undefined = false ∧ s.phase = .draining := by
        unfold step at ht
        split at ht
        · exact absurd ht (by simp)
        · rename_i hu
          refine ⟨by simpa using hu, ?_⟩
          by_contra hp
          cases hphase : s.phase with
          | draining => exact hp hphase
          | _ =>
              rw [hphase] at ht
              exact absurd ht (by simp)
      exact hlocks ((drain_deadlocked_iff hfits.1 hfits.2 ht).mp hdead)
  · have hnot : ¬ s.LocksAgain lib input := by
      intro h
      cases input with
      | drain r now o => exact hdrain ⟨r, now, o, rfl⟩
      | _ => exact h
    refine iff_of_true ?_ hnot
    intro t ht
    unfold step at ht
    split at ht
    · exact absurd ht (by simp)
    · split at ht
      · rw [← Option.some.inj ht]
        simp
      · rw [← Option.some.inj ht, phase_performAccept]
        simp
      · rw [← Option.some.inj ht, phase_performRecv _ _ _ _ _ rfl]
        simp
      · rw [← Option.some.inj ht, phase_performSend]
        simp
      · rw [← Option.some.inj ht, phase_killConnection]
        simp
      · rw [← Option.some.inj ht]
        simp
      · rename_i r now o _
        exact absurd ⟨r, now, o, rfl⟩ hdrain
      · split at ht
        · rw [← Option.some.inj ht]
          simp
        · exact absurd ht (by simp)
      -- an answer from another thread waits for the mutex outside the loop
      · split at ht
        · rename_i r hanswer
          rw [← Option.some.inj ht, phase_reply, if_neg]
          · exact hs
          · rintro ⟨hr, hp⟩
            cases r with
            | http resp => exact absurd hanswer.2 (by simp [blocked, hp])
            | custom bytes => exact absurd hr (by simp [Reply.isHttp])
        · exact absurd ht (by simp)
      · exact absurd ht (by simp)

/-! ## Runs -/

/-- **When the loop never takes its mutex again.** In a run from the start, the loop never waits for the
    mutex it holds, exactly if no step drains an answer of a connection that stays open and whose next
    request goes to a handler that calls `sendResponse` before it returns. -/
theorem never_reenters_lock_iff (lib : Library PS CP CR) (listenSock : Nat) (inputs : List Input) :
    Always (step lib) (fun s => s.phase ≠ .deadlocked) (init lib listenSock) inputs ↔
      Along (step lib) (fun s input => ¬ s.LocksAgain lib input) (init lib listenSock) inputs :=
  always_iff_along (fun hs => step_deadlocked_iff hs) (by simp [init])

/-- Two requests come in before the first is answered; the handler of the second, called while the first
    answer is drained, answers at once. -/
def answeredInside : List Input :=
  [.poll [.accept], .accept [5] 0, .lock, .finish 0,
    .poll [.read 5], .read [.data HttpConnection.oneGet, .again] 0 ⟨[], false⟩, .lock, .finish 0,
    .poll [.read 5], .read [.data HttpConnection.oneGet, .again] 0 ⟨[], false⟩,
    .answer 0 0 (.http ⟨200, ascii "one", []⟩), .lock,
    .drain (.accepted 1000) 0 ⟨[.http ⟨200, ascii "two", []⟩], false⟩]

theorem answeredInside_deadlocked : ((init HttpConnection.oneGetLibrary 3).run
    HttpConnection.oneGetLibrary answeredInside).map Server.phase = some .deadlocked := by decide +kernel

/-- The loop waits for its own mutex. -/
theorem answeredInside_reenters_lock : ¬ Always (step HttpConnection.oneGetLibrary)
    (fun s => s.phase ≠ .deadlocked) (init HttpConnection.oneGetLibrary 3) answeredInside := by
  intro h
  obtain ⟨t, ht, hdead⟩ := Option.map_eq_some_iff.mp answeredInside_deadlocked
  exact h answeredInside t (List.prefix_refl _) ht hdead

end Server

end HttpServer
end Hiaux
