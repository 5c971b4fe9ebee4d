import Hiaux.HttpServer.Correctness.Ownership
import Hiaux.Lib.Lookup

/-!
# `HttpServer.Correctness.Dispatch` — operations on a connection keep the invariant

Each operation of the loop on one connection is taken from stage to stage: a dispatch from `settled` to
`handling`, a reply from there to `queued` or `lost`. A handler that answers once either leaves the
invariant or, answering over HTTP while the loop drains its queues, waits for the mutex for ever; then only
what has happened so far remains to be said (`Safe`).
-/

namespace Hiaux
namespace HttpServer

open Lib Network

variable {PS CP CR : Type}

namespace Server

variable {held : Nat → Prop} {s s' : Server PS CP CR} {i j : Nat}

/-! ## Reading a changed server -/

@[simp] theorem objects_modify_self (f : Object PS CP CR → Object PS CP CR) :
    (s.modify i f).objects i = f (s.objects i) := Function.update_self _ _ _

theorem objects_modify_of_ne (f : Object PS CP CR → Object PS CP CR) (h : j ≠ i) :
    (s.modify i f).objects j = s.objects j := Function.update_of_ne h _ _

@[simp] theorem conn_setConn_self (c : HttpConnection PS CP CR) : (s.setConn i c).conn i = c := by
  unfold conn setConn
  rw [objects_modify_self]

/-! ## Operations on one connection -/

/-- A change of an object that is held. -/
theorem Strong.modify (h : Strong held s) (hi : i < s.allocated) (hheld : held i)
    {f : Object PS CP CR → Object PS CP CR} (hsock : (f (s.objects i)).conn.sock = (s.conn i).sock)
    (hstage : (s.modify i f).Stage i) (hsound : (f (s.objects i)).Sound) : Strong held (s.modify i f) := by
  refine h.change rfl hi (fun j hj => objects_modify_of_ne f hj) (fun _ _ => rfl) ?_
    rfl (fun ht => ht) (fun _ => Or.inr hheld) hstage ?_
  · unfold conn
    rw [objects_modify_self]
    exact hsock
  · rw [objects_modify_self]
    exact hsound

/-- The stage of a connection that is settled does not depend on the connection itself. -/
theorem stage_settled {o : Object PS CP CR} (hobj : s.objects i = o)
    (count : o.dispatched = o.added.length) (answered : o.Answered o.dispatched)
    (none : s.entries i = []) : s.Stage i := by
  subst hobj
  exact .settled count answered none

/-- A change of the connection alone. The waiting flag may be cleared once all requests have been answered
    and no read of the connection is to come. -/
theorem Stage.setConn (h : s.Stage i) {c : HttpConnection PS CP CR} (hsock : c.sock = (s.conn i).sock)
    (hwait : (s.conn i).waitingLastHandling = true → c.waitingLastHandling = true ∨
      (¬ s.MayRead (s.conn i).sock ∧ (s.objects i).Answered (s.objects i).dispatched)) :
    (s.setConn i c).Stage i := by
  have hself : (s.setConn i c).objects i = { s.objects i with conn := c } := objects_modify_self _
  cases h with
  | settled count answered none => exact stage_settled hself count answered none
  | handling count answered open_ none waiting =>
      refine .handling (by rw [hself]; exact count) (by rw [hself]; exact answered)
        (by rw [hself]; exact open_) none ?_
      rw [conn_setConn_self]
      rcases hwait waiting with hw | ⟨-, hall⟩
      · exact hw
      · -- the request in progress has no answer yet
        obtain ⟨a, ha, hk⟩ := hall (s.objects i).added.length (by omega)
        exact absurd hk (open_ a ha)
  | queued r count answered one mem waiting =>
      refine .queued r (by rw [hself]; exact count) (by rw [hself]; exact answered)
        (by rw [hself]; exact one) (by rw [hself]; exact mem) ?_
      rw [conn_setConn_self, hsock]
      rcases waiting with hw | hr
      · exact (hwait hw).imp id And.left
      · exact Or.inr hr
  | lost count answered none gone =>
      refine .lost (by rw [hself]; exact count) (by rw [hself]; exact answered) none ?_
      unfold InTable
      rw [conn_setConn_self, hsock]
      exact gone

/-- Socket operations on a connection. -/
theorem Strong.setConn (h : Strong held s) (hi : i < s.allocated) (hheld : held i)
    {c : HttpConnection PS CP CR} (hc : HttpConnection.SameExchange (s.conn i) c) :
    Strong held (s.setConn i c) := by
  refine h.modify hi hheld hc.sock ?_ ⟨(h.sound hi).bounded, (h.sound hi).once, (h.sound hi).paired,
    hc.output.trans (h.sound hi).output⟩
  exact (h.stage hi).setConn hc.sock (fun hw => Or.inl (hc.waiting.trans hw))

/-- The waiting flag is cleared. -/
theorem Strong.clearWaiting (h : Strong held s) (hi : i < s.allocated) (hheld : held i)
    (hread : ¬ s.MayRead (s.conn i).sock) (hall : (s.objects i).Answered (s.objects i).dispatched) :
    Strong held (s.setConn i { s.conn i with waitingLastHandling := false }) := by
  refine h.modify hi hheld rfl ?_
    ⟨(h.sound hi).bounded, (h.sound hi).once, (h.sound hi).paired, (h.sound hi).output⟩
  exact (h.stage hi).setConn rfl (fun _ => Or.inr ⟨hread, hall⟩)

/-- **Dispatch**: a settled connection gives its next request to a handler. -/
theorem Strong.dispatch (h : Strong held s) (hi : i < s.allocated) (hheld : held i)
    {c : HttpConnection PS CP CR} (hsock : c.sock = (s.conn i).sock) (hout : c.output = (s.conn i).output)
    (count : (s.objects i).dispatched = (s.objects i).added.length)
    (answered : (s.objects i).Answered (s.objects i).dispatched) (none : s.entries i = []) :
    Strong held (s.dispatch i c) ∧ (s.dispatch i c).Pending i (s.objects i).dispatched := by
  have hself : (s.dispatch i c).objects i = { s.objects i with
      conn := { c with waitingLastHandling := true }
      dispatched := (s.objects i).dispatched + 1 } := objects_modify_self _
  -- no answer names the request that is about to be dispatched
  have hopen : ∀ a ∈ (s.objects i).answers, a.1 ≠ (s.objects i).dispatched :=
    fun a ha => Nat.ne_of_lt ((h.sound hi).bounded a ha)
  refine ⟨h.modify hi hheld hsock ?_ ⟨?_, (h.sound hi).once, (h.sound hi).paired, hout.trans (h.sound hi).output⟩, hi, ?_, ?_⟩
  · show (s.dispatch i c).Stage i
    refine .handling (by rw [hself]; exact congrArg (· + 1) count) ?_ ?_ none ?_
    · rw [hself]
      exact answered.mono (Nat.le_of_eq count.symm)
    · rw [hself]
      exact fun a ha => count ▸ hopen a ha
    · unfold conn
      rw [hself]
  · exact fun a ha => Nat.lt_succ_of_lt ((h.sound hi).bounded a ha)
  · rw [hself]
    exact Nat.lt_succ_self _
  · rw [hself]
    exact hopen

/-! ## Replies -/

/-- Recording an answer. -/
def addAnswer (i k : Nat) (r : Reply) (s : Server PS CP CR) : Server PS CP CR :=
  s.modify i (fun o => { o with answers := o.answers ++ [(k, r)] })

/-- Queueing a reply. -/
def push (i k : Nat) (r : Reply) (s : Server PS CP CR) : Server PS CP CR :=
  match r with
  | .http resp => { s with respQueue := s.respQueue ++ [⟨i, k, resp⟩] }
  | .custom bytes => { s with customRespQueue := s.customRespQueue ++ [⟨i, k, bytes⟩] }

/-- **What a reply does**: it waits for ever for the mutex the loop holds, or is dropped, or is queued. -/
theorem reply_cases (i k : Nat) (r : Reply) (s : Server PS CP CR) :
    ((∃ resp, r = .http resp) ∧ s.phase = .draining ∧
      s.reply i k r = { s.addAnswer i k r with phase := .deadlocked }) ∨
    ((∀ resp, r = .http resp → s.phase ≠ .draining) ∧
      ((s.readingConnections[(s.conn i).sock]? = none ∧ s.reply i k r = s.addAnswer i k r) ∨
        ∃ j, s.readingConnections[(s.conn i).sock]? = some j ∧
          s.reply i k r = (s.addAnswer i k r).push j k r)) := by
  have hsock : ((s.addAnswer i k r).conn i).sock = (s.conn i).sock := by
    unfold conn addAnswer
    rw [objects_modify_self]
  cases r with
  | http resp =>
      have hreply : s.reply i k (.http resp) = (s.addAnswer i k (.http resp)).onSendResponse
          ((s.addAnswer i k (.http resp)).conn i).sock k resp := rfl
      have hph : (s.addAnswer i k (.http resp)).phase = s.phase := rfl
      have htab : (s.addAnswer i k (.http resp)).readingConnections = s.readingConnections := rfl
      rw [hreply, hsock]
      unfold onSendResponse
      rw [hph, htab]
      -- only `onSendResponse` takes the mutex
      by_cases hphase : s.phase = .draining
      · exact Or.inl ⟨⟨resp, rfl⟩, hphase, if_pos hphase⟩
      · refine Or.inr ⟨fun _ _ => hphase, ?_⟩
        rw [if_neg hphase]
        cases s.readingConnections[(s.conn i).sock]? with
        | none => exact Or.inl ⟨rfl, rfl⟩
        | some j => exact Or.inr ⟨j, rfl, rfl⟩
  | custom bytes =>
      have hreply : s.reply i k (.custom bytes) = (s.addAnswer i k (.custom bytes)).onSendCustomResponse
          ((s.addAnswer i k (.custom bytes)).conn i).sock k bytes := rfl
      have htab : (s.addAnswer i k (.custom bytes)).readingConnections = s.readingConnections := rfl
      rw [hreply, hsock]
      unfold onSendCustomResponse
      rw [htab]
      refine Or.inr ⟨fun _ h => absurd h (by simp), ?_⟩
      cases s.readingConnections[(s.conn i).sock]? with
      | none => exact Or.inl ⟨rfl, rfl⟩
      | some j => exact Or.inr ⟨j, rfl, rfl⟩

theorem entries_push_of_ne (k : Nat) (r : Reply) (h : j ≠ i) : (s.push i k r).entries j = s.entries j := by
  cases r <;> simp [push, entries, List.filter_append, Ne.symm h]

theorem entries_push_self (k : Nat) (r : Reply) (h : s.entries i = []) :
    (s.push i k r).entries i = [(k, r)] := by
  have hnil : s.respQueue.filter (·.conn = i) = [] ∧ s.customRespQueue.filter (·.conn = i) = [] := by
    simpa [entries] using h
  cases r <;> simp [push, entries, List.filter_append, hnil.1, hnil.2]

theorem Safe.addAnswer (h : Safe s) {k : Nat} (hk : s.Pending i k) (r : Reply) :
    Safe (s.addAnswer i k r) := by
  have hself : (s.addAnswer i k r).objects i =
      { s.objects i with answers := (s.objects i).answers ++ [(k, r)] } := objects_modify_self _
  have hne : ∀ j, j ≠ i → (s.addAnswer i k r).objects j = s.objects j :=
    fun j hj => objects_modify_of_ne _ hj
  constructor
  · intro j hj
    by_cases hji : j = i
    · rw [hji, hself]
      exact (h.sound hk.1).addAnswer hk.2.1 hk.2.2 r
    · rw [hne j hji]
      exact h.sound hj
  · intro j a b ha hb
    have hpend : ∀ n, (s.addAnswer i k r).Pending j n → s.Pending j n := by
      intro n hn
      by_cases hji : j = i
      · rw [hji] at hn ⊢
        obtain ⟨h1, h2, h3⟩ := hn
        rw [hself] at h2 h3
        exact ⟨h1, h2, fun a ha => h3 a (List.mem_append_left _ ha)⟩
      · obtain ⟨h1, h2, h3⟩ := hn
        rw [hne j hji] at h2 h3
        exact ⟨h1, h2, h3⟩
    exact h.one (hpend a ha) (hpend b hb)

/-- **A reply** to the request in progress that does not wait for the mutex. -/
theorem Strong.reply (h : Strong held s) {k : Nat} (hk : s.Pending i k) (hheld : held i)
    (r : Reply) (hphase : ∀ resp, r = .http resp → s.phase ≠ .draining) :
    Strong held (s.reply i k r) ∧ (s.reply i k r).phase = s.phase ∧
      (s.reply i k r).undefined = s.undefined ∧ (s.reply i k r).allocated = s.allocated ∧
      (s.reply i k r).objects i = { s.objects i with answers := (s.objects i).answers ++ [(k, r)] } := by
  have hi := hk.1
  obtain ⟨hkm, hcount, hnone, hwait⟩ := (h.stage hi).pending_eq hk
  have hself : (s.addAnswer i k r).objects i =
      { s.objects i with answers := (s.objects i).answers ++ [(k, r)] } := objects_modify_self _
  have hanswered : Object.Answered { s.objects i with answers := (s.objects i).answers ++ [(k, r)] }
      (s.objects i).dispatched := by
    intro n hn
    by_cases hnk : n = k
    · exact ⟨(k, r), List.mem_append_right _ (List.mem_singleton_self _), hnk.symm⟩
    · obtain ⟨a, ha, han⟩ := (h.stage hi).answered_added n (by omega)
      exact ⟨a, List.mem_append_left _ ha, han⟩
  have hsound := (h.sound hi).addAnswer hk.2.1 hk.2.2 r
  rcases reply_cases i k r s with ⟨⟨resp, hr⟩, hdr, -⟩ | ⟨-, ⟨ht, heq⟩ | ⟨j, ht, heq⟩⟩
  · exact absurd hdr (hphase resp hr)
  -- the connection has left the table: the answer is dropped
  · rw [heq]
    refine ⟨?_, rfl, rfl, rfl, hself⟩
    refine h.modify hi hheld rfl ?_ hsound
    show (s.addAnswer i k r).Stage i
    refine .lost (by rw [hself]; exact hcount) (by rw [hself]; exact hanswered) hnone ?_
    unfold InTable conn
    rw [hself]
    exact fun hin => absurd (ht.symm.trans hin) (by simp)
  -- the entry found under the descriptor is this connection
  · have hj : j = i := h.lookup (Or.inr hheld) ht
    subst hj
    rw [heq]
    have hpush : ((s.addAnswer j k r).push j k r).objects = (s.addAnswer j k r).objects := by
      cases r <;> rfl
    have hpself : ((s.addAnswer j k r).push j k r).objects j =
        { s.objects j with answers := (s.objects j).answers ++ [(k, r)] } := by rw [hpush, hself]
    have hone : ((s.addAnswer j k r).push j k r).entries j = [(k, r)] := entries_push_self k r hnone
    refine ⟨?_, by cases r <;> rfl, by cases r <;> rfl, by cases r <;> rfl, hpself⟩
    refine h.change (by cases r <;> rfl) hi ?_ ?_ ?_ ?_ ?_ (fun _ => Or.inr hheld) ?_ ?_
    · intro a ha
      rw [hpush]
      exact objects_modify_of_ne _ ha
    · intro a ha
      exact entries_push_of_ne k r ha
    · unfold conn
      rw [hpself]
    · cases r <;> rfl
    · intro sock a ha
      cases r <;> exact ha
    · refine .queued r (by rw [hpself]; exact hcount) (by rw [hpself]; exact hanswered) ?_ ?_ (Or.inl ?_)
      · rw [hpself, hone, hkm]
      · rw [hpself, ← hkm]
        exact List.mem_append_right _ (List.mem_singleton_self _)
      · unfold conn
        rw [hpself]
        exact hwait
    · rw [hpself]
      exact hsound

/-! ## Handlers -/

/-- The invariant, as far as the loop goes. -/
structure Fine (held : Nat → Prop) (s : Server PS CP CR) : Prop where
  safe : Safe s
  strong : s.undefined = false → s.phase ≠ .deadlocked → Strong held s

theorem Strong.fine (h : Strong held s) : Fine held s := ⟨h.safe, fun _ _ => h⟩

theorem Fine.weaken {held' : Nat → Prop} (h : Fine held s)
    (hheld : ∀ i, held' i → s.Owned i ∨ held i) : Fine held' s :=
  ⟨h.safe, fun hu hp => (h.strong hu hp).weaken hheld⟩

/-- A handler that answers once, at once or later, and does not throw. -/
structure HandlerOutcome.Once (o : HandlerOutcome) : Prop where
  one : o.replies.length ≤ 1
  returns : o.throws = false

/-- Where a handler's call leaves the loop: where it was, or waiting for the mutex. -/
structure Continues (s s' : Server PS CP CR) : Prop where
  phase : s'.phase = s.phase ∨ s'.phase = .deadlocked
  undefined : s'.undefined = s.undefined
  allocated : s'.allocated = s.allocated

theorem Continues.refl (s : Server PS CP CR) : Continues s s := ⟨Or.inl rfl, rfl, rfl⟩

theorem Continues.of_dispatch {c : HttpConnection PS CP CR} (h : Continues (s.dispatch i c) s') :
    Continues s s' := ⟨h.phase, h.undefined, h.allocated⟩

/-- **A handler's call** for the request in progress. -/
theorem Strong.runHandler (h : Strong held s) {k : Nat} (hk : s.Pending i k) (hheld : held i)
    {o : HandlerOutcome} (ho : HandlerOutcome.Once o) :
    (s.runHandler i k o).2 = false ∧ Fine held (s.runHandler i k o).1 ∧
      Continues s (s.runHandler i k o).1 := by
  have hthrows : (s.runHandler i k o).2 = false := by
    unfold Server.runHandler
    rw [ho.returns]
    rfl
  refine ⟨hthrows, ?_⟩
  show Fine held (s.replies i k o.replies) ∧ Continues s (s.replies i k o.replies)
  match hr : o.replies with
  | [] => exact ⟨h.fine, Continues.refl s⟩
  | [r] =>
      have hone : s.replies i k [r] = s.reply i k r := by
        unfold Server.replies
        dsimp only
        split <;> rfl
      rw [hone]
      rcases reply_cases i k r s with ⟨-, -, heq⟩ | ⟨hphase, -⟩
      · rw [heq]
        have hsafe := h.safe.addAnswer hk r
        exact ⟨⟨⟨hsafe.sound, hsafe.one⟩, fun _ hp => absurd rfl hp⟩, Or.inr rfl, rfl, rfl⟩
      · obtain ⟨hs, hph, hu, hal, -⟩ := h.reply hk hheld r hphase
        exact ⟨hs.fine, Or.inl hph, hu, hal⟩
  -- a second reply is excluded by `Once`
  | r :: q :: rs =>
      have hle := ho.one
      rw [hr] at hle
      simp at hle

/-! ## Dispatching -/

/-- **An upgrade**: the handshake is queued as the answer to the request, and the connection is free to
    dispatch; its next read comes after the batch. -/
theorem Strong.upgrade (h : Strong held s) {k : Nat} (hk : s.Pending i k) (hheld : held i)
    (hread : ¬ s.MayRead (s.conn i).sock) (handshake : Bytes) {c : HttpConnection PS CP CR}
    (hc : HttpConnection.SameExchange (s.conn i) c) :
    let t := (s.setConn i c).reply i k (.custom handshake)
    Strong held (t.setConn i { t.conn i with waitingLastHandling := false }) ∧
      Continues s (t.setConn i { t.conn i with waitingLastHandling := false }) := by
  have h1 : Strong held (s.setConn i c) := h.setConn hk.1 hheld hc
  have hobj1 : (s.setConn i c).objects i = { s.objects i with conn := c } := objects_modify_self _
  have hk1 : (s.setConn i c).Pending i k := by
    refine ⟨hk.1, ?_, ?_⟩
    · rw [hobj1]
      exact hk.2.1
    · rw [hobj1]
      exact hk.2.2
  obtain ⟨h2, hph, hu, hal, hobj⟩ := h1.reply hk1 hheld (.custom handshake) (fun _ h => absurd h (by simp))
  obtain ⟨hkm, hcount, -, -⟩ := (h1.stage hk.1).pending_eq hk1
  have hi2 : i < ((s.setConn i c).reply i k (.custom handshake)).allocated := hal ▸ hk.1
  have hconn2 : ((s.setConn i c).reply i k (.custom handshake)).conn i = c := by
    unfold conn
    rw [hobj, hobj1]
  have hread2 : ∀ sock, ((s.setConn i c).reply i k (.custom handshake)).MayRead sock → s.MayRead sock := by
    intro sock hr
    unfold MayRead reads at hr ⊢
    rw [hph] at hr
    exact hr
  -- the request has its answer now, so the connection is in the queue or lost
  have hstage := h2.stage hi2
  have hall : (((s.setConn i c).reply i k (.custom handshake)).objects i).Answered
      (((s.setConn i c).reply i k (.custom handshake)).objects i).dispatched := by
    cases hstage with
    | settled count answered none => exact answered
    | handling count answered open_ none waiting =>
        refine absurd ?_ (open_ (k, .custom handshake) ?_)
        · rw [hobj]
          exact hkm
        · rw [hobj]
          exact List.mem_append_right _ (List.mem_singleton_self _)
    | queued r count answered one mem waiting => exact answered
    | lost count answered none gone => exact answered
  refine ⟨h2.clearWaiting hi2 hheld ?_ hall, ?_⟩
  · rw [hconn2, hc.sock]
    exact fun hr => hread (hread2 _ hr)
  · exact ⟨Or.inl hph, hu, hal⟩

/-- **`handleWaitingRequests`** on a connection that is settled, unless it is waiting. -/
theorem Strong.handleWaitingRequests (h : Strong held s) (hi : i < s.allocated) (hheld : held i)
    (lib : Library PS CP CR) {o : HandlerOutcome} (ho : HandlerOutcome.Once o)
    (hsettled : (s.conn i).waitingLastHandling = false →
      ¬ s.MayRead (s.conn i).sock ∧ (s.objects i).dispatched = (s.objects i).added.length ∧
        (s.objects i).Answered (s.objects i).dispatched ∧ s.entries i = []) :
    (s.handleWaitingRequests lib i o).2 = false ∧ Fine held (s.handleWaitingRequests lib i o).1 ∧
      Continues s (s.handleWaitingRequests lib i o).1 := by
  unfold Server.handleWaitingRequests
  dsimp only
  by_cases hwait : (s.conn i).waitingLastHandling = true
  · rw [if_pos hwait]
    exact ⟨rfl, h.fine, Continues.refl s⟩
  obtain ⟨hread, hcount, hanswered, hnone⟩ := hsettled (Bool.eq_false_iff.mpr hwait)
  rw [if_neg hwait]
  split
  -- an HTTP request
  · rename_i request rest _ _
    obtain ⟨h1, hk⟩ := h.dispatch hi hheld (c := { s.conn i with httpRequests := rest }) rfl rfl hcount
      hanswered hnone
    split
    · rename_i protocol cp handshake _
      have hsock : ((s.dispatch i { s.conn i with httpRequests := rest }).conn i).sock =
          (s.conn i).sock := by
        unfold conn Server.dispatch
        rw [objects_modify_self]
      obtain ⟨h2, hcont⟩ := h1.upgrade hk hheld (by rw [hsock]; exact hread) handshake
        (c := { (s.dispatch i { s.conn i with httpRequests := rest }).conn i with
          customParser := some cp, customProtocol := true, customProtocolId := protocol })
        ⟨rfl, rfl, rfl⟩
      exact ⟨rfl, h2.fine, hcont.of_dispatch⟩
    · obtain ⟨hthrows, hfine, hcont⟩ := h1.runHandler hk hheld ho
      exact ⟨hthrows, hfine, hcont.of_dispatch⟩
  -- a request of the custom protocol
  · rename_i rest _ _
    split
    · obtain ⟨h1, hk⟩ := h.dispatch hi hheld (c := { s.conn i with customRequests := rest }) rfl rfl
        hcount hanswered hnone
      obtain ⟨hthrows, hfine, hcont⟩ := h1.runHandler hk hheld ho
      exact ⟨hthrows, hfine, hcont.of_dispatch⟩
    · refine ⟨rfl, Strong.fine ?_, Or.inl rfl, rfl, rfl⟩
      refine Strong.modify (f := fun o => { o with
        conn := { s.conn i with customRequests := rest, waitingLastHandling := true } }) h hi hheld rfl ?_
        ⟨(h.sound hi).bounded, (h.sound hi).once, (h.sound hi).paired, (h.sound hi).output⟩
      exact stage_settled (objects_modify_self _) hcount hanswered hnone
  · exact ⟨rfl, h.fine, Continues.refl s⟩

/-! ## The table -/

theorem Strong.delSocket (h : Strong held s) (sock : Nat) : Strong held (s.delSocket sock) :=
  h.shrink rfl rfl rfl rfl h.reads_nodup (fun _ _ _ hr => hr) (fun ht => ht)

theorem Strong.remove (h : Strong held s) (sock : Nat) : Strong held (s.remove sock) := by
  refine h.shrink rfl rfl rfl rfl h.reads_nodup (fun _ _ _ hr => hr) ?_
  intro sock' j ht
  exact getElem?_of_erase ht

theorem Strong.killConnection (h : Strong held s) (sock : Nat) : Strong held (s.killConnection sock) := by
  unfold Server.killConnection
  split
  · exact h.delSocket sock
  · exact h.remove sock

theorem Strong.enableEvents (h : Strong held s) (sock : Nat) : Strong held (s.enableEvents sock) := by
  unfold Server.enableEvents
  split
  · exact h
  · exact h.shrink rfl rfl rfl rfl h.reads_nodup (fun _ _ _ hr => hr) (fun ht => ht)

end Server

end HttpServer
end Hiaux
