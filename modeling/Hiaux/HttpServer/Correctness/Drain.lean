import Hiaux.HttpServer.Correctness.Dispatch

/-!
# `HttpServer.Correctness.Drain` — draining the response queues keeps the invariant

A queued answer is processed while it is still at the front of its queue; since the operations only append
to the queues, the result is the same as if it had been taken out first (`prepend`). Adding it settles its
connection, which may then dispatch its next request.
-/

namespace Hiaux
namespace HttpServer

open Lib Network

variable {PS CP CR : Type}

namespace Server

variable {held : Nat → Prop} {s s' : Server PS CP CR} {i j : Nat}

/-! ## Operations only append to the queues -/

/-- The server with more entries at the front of its queues. -/
def prepend (a : List (Queued HttpResponse)) (b : List (Queued Bytes)) (s : Server PS CP CR) :
    Server PS CP CR :=
  { s with respQueue := a ++ s.respQueue, customRespQueue := b ++ s.customRespQueue }

section

variable (a : List (Queued HttpResponse)) (b : List (Queued Bytes))

theorem onSendResponse_prepend (sock k : Nat) (resp : HttpResponse) (s : Server PS CP CR) :
    (s.prepend a b).onSendResponse sock k resp = (s.onSendResponse sock k resp).prepend a b := by
  have hphase : (s.prepend a b).phase = s.phase := rfl
  have htab : (s.prepend a b).readingConnections = s.readingConnections := rfl
  unfold onSendResponse
  rw [hphase, htab]
  by_cases hp : s.phase = .draining
  · rw [if_pos hp, if_pos hp]
    rfl
  · rw [if_neg hp, if_neg hp]
    cases s.readingConnections[sock]? with
    | none => rfl
    | some i => simp [prepend]

theorem onSendCustomResponse_prepend (sock k : Nat) (resp : Bytes) (s : Server PS CP CR) :
    (s.prepend a b).onSendCustomResponse sock k resp = (s.onSendCustomResponse sock k resp).prepend a b := by
  have htab : (s.prepend a b).readingConnections = s.readingConnections := rfl
  unfold onSendCustomResponse
  rw [htab]
  cases s.readingConnections[sock]? with
  | none => rfl
  | some i => simp [prepend]

theorem reply_prepend (i k : Nat) (r : Reply) (s : Server PS CP CR) :
    (s.prepend a b).reply i k r = (s.reply i k r).prepend a b := by
  cases r with
  | http resp =>
      have h : ∀ t : Server PS CP CR, t.reply i k (.http resp) =
          (t.addAnswer i k (.http resp)).onSendResponse
            ((t.addAnswer i k (.http resp)).conn i).sock k resp := fun _ => rfl
      have hadd : (s.prepend a b).addAnswer i k (.http resp) =
          (s.addAnswer i k (.http resp)).prepend a b := rfl
      rw [h, h, hadd, onSendResponse_prepend]
      rfl
  | custom bytes =>
      have h : ∀ t : Server PS CP CR, t.reply i k (.custom bytes) =
          (t.addAnswer i k (.custom bytes)).onSendCustomResponse
            ((t.addAnswer i k (.custom bytes)).conn i).sock k bytes := fun _ => rfl
      have hadd : (s.prepend a b).addAnswer i k (.custom bytes) =
          (s.addAnswer i k (.custom bytes)).prepend a b := rfl
      rw [h, h, hadd, onSendCustomResponse_prepend]
      rfl

theorem replies_prepend (i k : Nat) (rs : List Reply) (s : Server PS CP CR) :
    (s.prepend a b).replies i k rs = (s.replies i k rs).prepend a b := by
  induction rs generalizing s with
  | nil => rfl
  | cons r rs ih =>
      have hphase : ((s.reply i k r).prepend a b).phase = (s.reply i k r).phase := rfl
      unfold replies
      dsimp only
      rw [reply_prepend, hphase, ih]
      split <;> rfl

theorem handleWaitingRequests_prepend (lib : Library PS CP CR) (i : Nat) (o : HandlerOutcome)
    (s : Server PS CP CR) :
    (s.prepend a b).handleWaitingRequests lib i o =
      ((s.handleWaitingRequests lib i o).1.prepend a b, (s.handleWaitingRequests lib i o).2) := by
  have hrun : ∀ (k : Nat) (t : Server PS CP CR), (t.prepend a b).runHandler i k o =
      ((t.runHandler i k o).1.prepend a b, (t.runHandler i k o).2) := by
    intro k t
    unfold runHandler
    dsimp only
    rw [replies_prepend]
    rfl
  have hdispatch : ∀ c, (s.prepend a b).dispatch i c = (s.dispatch i c).prepend a b := fun _ => rfl
  have hset : ∀ (c : HttpConnection PS CP CR) (t : Server PS CP CR),
      (t.prepend a b).setConn i c = (t.setConn i c).prepend a b := fun _ _ => rfl
  have hconn : ∀ t : Server PS CP CR, (t.prepend a b).conn i = t.conn i := fun _ => rfl
  have hobj : (s.prepend a b).objects = s.objects := rfl
  unfold handleWaitingRequests
  dsimp only
  simp only [hconn, hobj, hdispatch, hset, reply_prepend, hrun]
  split
  · rfl
  · split
    · split <;> rfl
    · split <;> rfl
    · rfl

theorem handleResponse_prepend (lib : Library PS CP CR) (i : Nat) (r : SendResult) (now : Nat)
    (o : HandlerOutcome) (s : Server PS CP CR) :
    (s.prepend a b).handleResponse lib i r now o =
      ((s.handleResponse lib i r now o).1.prepend a b, (s.handleResponse lib i r now o).2) := by
  have hconn : ∀ t : Server PS CP CR, (t.prepend a b).conn i = t.conn i := fun _ => rfl
  have hset : ∀ (c : HttpConnection PS CP CR) (t : Server PS CP CR),
      (t.prepend a b).setConn i c = (t.setConn i c).prepend a b := fun _ _ => rfl
  have henable : ∀ (sock : Nat) (t : Server PS CP CR),
      (t.prepend a b).enableEvents sock = (t.enableEvents sock).prepend a b := by
    intro sock t
    simp only [enableEvents, prepend]
    split <;> rfl
  have hite : ∀ (p : Bool) (t u : Server PS CP CR),
      (if p then t.prepend a b else u.prepend a b) = (if p then t else u).prepend a b := by
    intro p t u
    cases p <;> rfl
  unfold handleResponse
  dsimp only
  simp only [hconn, hset, henable, hite, handleWaitingRequests_prepend]
  split
  · have htab : ∀ t : Server PS CP CR, (t.prepend a b).readingConnections = t.readingConnections :=
      fun _ => rfl
    rw [htab]
    split <;> rfl
  · rfl

end

/-! ## Handling an added answer -/

/-- **`handleResponse`** on a connection that is settled. -/
theorem Strong.handleResponse (h : Strong held s) (hi : i < s.allocated) (hheld : held i)
    (hphase : s.phase = .draining) (hcount : (s.objects i).dispatched = (s.objects i).added.length)
    (hanswered : (s.objects i).Answered (s.objects i).dispatched) (hnone : s.entries i = [])
    (lib : Library PS CP CR) (r : SendResult) (now : Nat) {o : HandlerOutcome}
    (ho : HandlerOutcome.Once o) :
    (s.handleResponse lib i r now o).2 = false ∧ Fine held (s.handleResponse lib i r now o).1 := by
  unfold Server.handleResponse
  have hsame := HttpConnection.performSend_same r now { s.conn i with waitingLastHandling := false }
  generalize HttpConnection.performSend r now { s.conn i with waitingLastHandling := false } = sent at hsame
  obtain ⟨c, sent⟩ := sent
  dsimp only at hsame ⊢
  have hself : (s.setConn i c).objects i = { s.objects i with conn := c } := objects_modify_self _
  have h1 : Strong held (s.setConn i c) :=
    h.modify hi hheld hsame.sock (stage_settled hself hcount hanswered hnone)
      ⟨(h.sound hi).bounded, (h.sound hi).once, (h.sound hi).paired,
        hsame.output.trans (h.sound hi).output⟩
  by_cases hdead : (!sent && !c.notDead now) = true
  · rw [if_pos hdead]
    split
    -- the connection is not in the table: erasing it there is undefined
    · exact ⟨rfl, ⟨h1.safe.sound, h1.safe.one⟩, fun hu => absurd hu (by simp)⟩
    · exact ⟨rfl, (h1.remove c.sock).fine⟩
  · rw [if_neg hdead]
    have h2 : Strong held (if sent then s.setConn i c else (s.setConn i c).enableEvents c.sock) := by
      split
      · exact h1
      · exact h1.enableEvents c.sock
    have hkept : ∀ t : Server PS CP CR, t = (if sent then s.setConn i c else
        (s.setConn i c).enableEvents c.sock) → t.objects = (s.setConn i c).objects ∧
          t.allocated = s.allocated ∧ t.phase = s.phase ∧ t.entries i = s.entries i := by
      rintro t rfl
      unfold Server.enableEvents
      split
      · exact ⟨rfl, rfl, rfl, rfl⟩
      · split <;> exact ⟨rfl, rfl, rfl, rfl⟩
    generalize (if sent then s.setConn i c else (s.setConn i c).enableEvents c.sock) = t at h2 hkept ⊢
    obtain ⟨hobj, halloc, hph, hent⟩ := hkept t rfl
    obtain ⟨hthrew, hfine, -⟩ := h2.handleWaitingRequests (halloc ▸ hi) hheld lib ho (by
      intro _
      rw [hobj, hself, hent]
      refine ⟨?_, hcount, hanswered, hnone⟩
      unfold MayRead
      rw [hph, hphase]
      exact id)
    exact ⟨hthrew, hfine⟩

/-! ## Adding an answer -/

/-- A reply is added to the record of responses and to the connection's output. -/
theorem addReply_eq (lib : Library PS CP CR) (now i : Nat) (r : Reply) (s : Server PS CP CR) :
    ∃ c bytes, s.addReply lib now i r =
        s.modify i (fun o => { o with conn := c, added := o.added ++ [(r, bytes)] }) ∧
      c.sock = (s.conn i).sock ∧ c.output = (s.conn i).output ++ bytes := by
  cases r with
  | http resp =>
      refine ⟨_, _, rfl, rfl, ?_⟩
      simp [HttpConnection.output, HttpConnection.addResponse]
  | custom bytes =>
      refine ⟨_, _, rfl, rfl, ?_⟩
      simp [HttpConnection.output, HttpConnection.addCustomResponse]

/-- **Taking an answer** from its queue and adding it to its connection, which is settled then. -/
theorem Strong.addReply (h : Strong (fun _ => False) s) (s' : Server PS CP CR) {k : Nat} {r : Reply}
    (hfront : s.entries i = (k, r) :: s'.entries i) (hobj : s'.objects = s.objects)
    (halloc : s'.allocated = s.allocated) (htab : s'.readingConnections = s.readingConnections)
    (hphase : s'.phase = s.phase) (hother : ∀ j, j ≠ i → s'.entries j = s.entries j)
    (lib : Library PS CP CR) (now : Nat) :
    let t := s'.addReply lib now i r
    Strong (· = i) t ∧ i < t.allocated ∧ t.phase = s.phase ∧
      (t.objects i).dispatched = (t.objects i).added.length ∧
      (t.objects i).Answered (t.objects i).dispatched ∧ t.entries i = [] := by
  -- an answer is queued, so the connection exists and is held by the queue
  have hnil : s.entries i ≠ [] := by
    rw [hfront]
    simp
  have hi : i < s.allocated := by
    by_contra hge
    exact hnil (h.fresh (Nat.le_of_not_lt hge))
  have hheld : Strong (· = i) s := by
    refine h.weaken ?_
    rintro j rfl
    exact Or.inl (Or.inr (Or.inl hnil))
  have hconn : s'.conn i = s.conn i := by
    unfold conn
    rw [hobj]
  obtain ⟨c, bytes, heq, hsock, hout⟩ := addReply_eq lib now i r s'
  intro t
  have ht : t = s'.modify i (fun o => { o with conn := c, added := o.added ++ [(r, bytes)] }) := heq
  have hti : t.objects i =
      { s.objects i with conn := c, added := (s.objects i).added ++ [(r, bytes)] } := by
    rw [ht, objects_modify_self, hobj]
  have hent : ∀ j, t.entries j = s'.entries j := by
    intro j
    rw [ht]
    rfl
  cases h.stage hi with
  | settled count answered none => exact absurd none hnil
  | handling count answered open_ none waiting => exact absurd none hnil
  | lost count answered none gone => exact absurd none hnil
  | queued q count answered one mem waiting =>
      rw [hfront] at one
      -- the entry at the front is the only one of its connection, and carries its number
      obtain ⟨hkr, hrest⟩ := List.cons.inj one
      obtain ⟨-, rfl⟩ := Prod.mk.inj hkr
      have hcount : (t.objects i).dispatched = (t.objects i).added.length := by
        rw [hti]
        simpa using count
      have hanswered : (t.objects i).Answered (t.objects i).dispatched := by
        rw [hti]
        exact answered
      have hnone : t.entries i = [] := by rw [hent, hrest]
      have halloc' : t.allocated = s.allocated := by
        rw [ht]
        exact halloc
      have hphase' : t.phase = s.phase := by
        rw [ht]
        exact hphase
      refine ⟨?_, halloc' ▸ hi, hphase', hcount, hanswered, hnone⟩
      refine hheld.change halloc' hi ?_ ?_ ?_ hphase' ?_ (fun _ => Or.inr rfl)
        (.settled hcount hanswered hnone) ?_
      · intro j hj
        rw [ht, objects_modify_of_ne _ hj, hobj]
      · intro j hj
        rw [hent, hother j hj]
      · show (t.objects i).conn.sock = (s.conn i).sock
        rw [hti, ← hconn]
        exact hsock
      · intro sock j hj
        rw [ht] at hj
        exact htab ▸ hj
      · rw [hti]
        refine ⟨(h.sound hi).bounded, (h.sound hi).once, ?_, ?_⟩
        · intro j r' hj
          have hj' : ((s.objects i).added.map Prod.fst ++ [r])[j]? = some r' := by
            simpa using hj
          rcases getElem?_concat_cases hj' with hold | ⟨hlen, rfl⟩
          · exact (h.sound hi).paired hold
          -- the answer just added
          · rw [hlen, List.length_map]
            exact mem
        · have hold : (s.conn i).output = ((s.objects i).added.map Prod.snd).flatten := (h.sound hi).output
          show c.output = (((s.objects i).added ++ [(r, bytes)]).map Prod.snd).flatten
          rw [hout, hconn, hold]
          simp

/-! ## One round of the draining loops -/

/-- **One round**: `s` is the server without the answer that is being processed, `a` and `b` what stands
    before the queues' other entries. -/
theorem Strong.drainOne {a : List (Queued HttpResponse)} {b : List (Queued Bytes)} {r : Reply}
    {pop : Server PS CP CR → Server PS CP CR} (hpop : ∀ t : Server PS CP CR, pop (t.prepend a b) = t)
    (lib : Library PS CP CR) (r' : SendResult) (now : Nat) {o : HandlerOutcome}
    (ho : HandlerOutcome.Once o) (h : Strong (· = i) (s.addReply lib now i r))
    (hi : i < (s.addReply lib now i r).allocated) (hphase : (s.addReply lib now i r).phase = .draining)
    (hcount : ((s.addReply lib now i r).objects i).dispatched =
      ((s.addReply lib now i r).objects i).added.length)
    (hanswered : ((s.addReply lib now i r).objects i).Answered
      ((s.addReply lib now i r).objects i).dispatched)
    (hnone : (s.addReply lib now i r).entries i = []) :
    Fine (fun _ => False) ((s.prepend a b).drainOne lib i r pop r' now o) := by
  have hadd : (s.prepend a b).addReply lib now i r = (s.addReply lib now i r).prepend a b := by
    cases r <;> rfl
  obtain ⟨hthrew, hfine⟩ := h.handleResponse hi rfl hphase hcount hanswered hnone lib r' now ho
  unfold Server.drainOne
  -- process the answer as if it had been popped, then pop it
  rw [hadd, handleResponse_prepend]
  dsimp only
  rw [hthrew]
  generalize ((s.addReply lib now i r).handleResponse lib i r' now o).1 = u at hfine
  split
  · rename_i hstop
    refine ⟨⟨hfine.safe.sound, hfine.safe.one⟩, ?_⟩
    intro hu hp
    rcases Bool.or_eq_true_iff.mp hstop with hstop | hstop
    · exact absurd (hstop.symm.trans hu) (by simp)
    · exact absurd (of_decide_eq_true hstop) hp
  · rw [if_neg (by simp), hpop]
    exact hfine.weaken (fun _ hf => hf.elim)

/-- **A step of the draining loops.** -/
theorem Strong.drain {q : Server PS CP CR} (h : Strong (fun _ => False) s) (hphase : s.phase = .draining)
    (lib : Library PS CP CR) {r : SendResult} {now : Nat} {o : HandlerOutcome}
    (ho : HandlerOutcome.Once o) (hu : s.undefined = false) (hq : s.step lib (.drain r now o) = some q) :
    Fine (fun _ => False) q := by
  unfold Server.step at hq
  rw [hu, hphase] at hq
  dsimp only at hq
  rw [if_neg (by simp)] at hq
  split at hq
  · rename_i x rest hresp
    obtain ⟨h1, hi, hph, hcount, hanswered, hnone⟩ := h.addReply { s with respQueue := rest }
      (i := x.conn) (k := x.request) (r := .http x.resp) (by simp [entries, hresp]) rfl rfl rfl rfl
      (by intro j hj; simp [entries, hresp, Ne.symm hj]) lib now
    -- put the popped answer back in front
    have hs : s = { s with respQueue := rest }.prepend [x] [] := by
      simp [prepend, ← hresp]
    rw [← Option.some.inj hq]
    nth_rewrite 1 [hs]
    exact Strong.drainOne (fun t => rfl) lib r now ho h1 hi (hph.trans hphase) hcount hanswered hnone
  · rename_i x rest hresp hcustom
    obtain ⟨h1, hi, hph, hcount, hanswered, hnone⟩ := h.addReply { s with customRespQueue := rest }
      (i := x.conn) (k := x.request) (r := .custom x.resp) (by simp [entries, hresp, hcustom])
      rfl rfl rfl rfl (by intro j hj; simp [entries, hresp, hcustom, Ne.symm hj]) lib now
    have hs : s = { s with customRespQueue := rest }.prepend [] [x] := by
      simp [prepend, ← hcustom]
    rw [← Option.some.inj hq]
    nth_rewrite 1 [hs]
    exact Strong.drainOne (fun t => rfl) lib r now ho h1 hi (hph.trans hphase) hcount hanswered hnone
  · exact absurd hq (by simp)

end Server

end HttpServer
end Hiaux
