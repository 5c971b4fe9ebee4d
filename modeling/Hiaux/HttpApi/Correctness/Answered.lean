import Hiaux.HttpApi.ApiServer
import Hiaux.HttpServer.Correctness.Answers
import Hiaux.HttpServer.Correctness.Order

/-!
# `HttpApi.Correctness.Answered` — whether somebody is going to answer

A connection whose flag is raised dispatches nothing until an answer is drained. The flag is raised before
the request goes to whoever is to answer it, so it stays raised for ever when nobody is: a request that no
route matches, or a custom request that the cast refuses. As long as no such request is dispatched
(`Served`), a connection that waits has an answer in the queues, or a handler that has not answered yet
(`answer_always_due`).
-/

namespace Hiaux

open Lib Network

namespace HttpApi

open HttpServer

variable {PS CP CR H : Type}

/-- Everything but an asynchronous callback answers at once. -/
theorem Api.replies_ne_nil {api : Api} {params : StrMap} {bin : Bool}
    (h : ∀ onreq, (api.handleRequest params bin).invoked ≠ [.async onreq]) :
    (api.handleRequest params bin).replies ≠ [] := by
  unfold handleRequest at h ⊢
  dsimp only at h ⊢
  split
  · simp
  · rename_i hcheck
    rw [hcheck] at h
    dsimp only at h
    split
    · rename_i hasync
      rw [if_pos hasync] at h
      split
      · simp
      · rename_i onreq honreq
        rw [honreq] at h
        exact absurd rfl (h onreq)
    · split
      · simp
      · split <;> simp

namespace ApiServer

variable {app : Application PS CP CR H} {reserve : Nat → Nat} {due : Option (Nat × Nat)}
  {w w' : ApiServer PS CP CR} {s t : Server PS CP CR} {i k : Nat}

/-! ## The invariant -/

/-- The invariant of one connection. Its dispatched requests are answered or with a handler, except for the one
    that is `due` right now; and if it is in the table and waits, it has an answer in the queues, not counting
    those in `reserve` that are about to be popped, or a request that is not answered yet. -/
structure AttendedAt (app : Application PS CP CR H) (reserve : Nat → Nat) (due : Option (Nat × Nat))
    (w : ApiServer PS CP CR) (i : Nat) : Prop where
  table : ∀ {sock : Nat}, w.server.readingConnections[sock]? = some i → i < w.server.allocated
  answers : ∀ a ∈ (w.server.objects i).answers, a.1 < (w.server.objects i).dispatched
  upgraded : (w.server.conn i).Upgraded app.lib
  invoked : ∀ {k : Nat}, w.server.Pending i k → (i, k) ∈ w.invoked ∨ due = some (i, k)
  waiting : w.server.phase ≠ .deadlocked → w.server.InTable i →
    (w.server.conn i).waitingLastHandling = true →
      reserve i < (w.server.entries i).length ∨ ∃ k, w.server.Pending i k

/-- It holds of every connection. -/
def Attended (app : Application PS CP CR H) (reserve : Nat → Nat) (due : Option (Nat × Nat))
    (w : ApiServer PS CP CR) : Prop := ∀ i, AttendedAt app reserve due w i

/-- A connection that an operation is not about. -/
theorem AttendedAt.frame {j : Nat} (h : AttendedAt app reserve due w j) {due' : Option (Nat × Nat)}
    (hobj : t.objects j = w.server.objects j) (halloc : j < t.allocated ↔ j < w.server.allocated)
    (htab : ∀ {sock : Nat}, t.readingConnections[sock]? = some j →
      w.server.readingConnections[sock]? = some j)
    (hentries : (w.server.entries j).length ≤ (t.entries j).length)
    (hphase : t.phase ≠ .deadlocked → w.server.phase ≠ .deadlocked)
    (hdue : ∀ k, due = some (j, k) → due' = some (j, k)) :
    AttendedAt app reserve due' { w with server := t } j := by
  have hconn : t.conn j = w.server.conn j := congrArg Object.conn hobj
  have hpending : ∀ k, t.Pending j k ↔ w.server.Pending j k := by
    intro k
    unfold Server.Pending
    rw [hobj, halloc]
  refine ⟨fun ht => halloc.mpr (h.table (htab ht)), ?_, ?_, fun hp => ?_, fun hp hj hw => ?_⟩
  · show ∀ a ∈ (t.objects j).answers, a.1 < (t.objects j).dispatched
    rw [hobj]
    exact h.answers
  · show (t.conn j).Upgraded app.lib
    rw [hconn]
    exact h.upgraded
  · exact (h.invoked ((hpending _).mp hp)).imp_right (hdue _)
  · have hj' : t.InTable j := hj
    have hw' : (t.conn j).waitingLastHandling = true := hw
    unfold Server.InTable at hj'
    rw [hconn] at hj' hw'
    rcases h.waiting (hphase hp) (htab hj') hw' with hq | ⟨k, hk⟩
    · exact Or.inl (Nat.lt_of_lt_of_le hq hentries)
    · exact Or.inr ⟨k, (hpending k).mpr hk⟩

/-- An operation that answers nothing. -/
theorem Attended.still (h : Attended app reserve due w) (hs : w.server.Still app.lib t) :
    Attended app reserve due { w with server := t } := by
  intro j
  have hj := h j
  have ho := hs.objects j
  refine ⟨fun ht => ?_, ?_, ho.upgraded hj.upgraded, fun hp => hj.invoked (hs.pending.mp hp),
    fun hp ht hw => ?_⟩
  · show j < t.allocated
    rw [hs.allocated]
    exact hj.table (hs.table ht)
  · show ∀ a ∈ (t.objects j).answers, a.1 < (t.objects j).dispatched
    rw [ho.answers, ho.dispatched]
    exact hj.answers
  · rcases hj.waiting (fun hd => hp (hs.phase hd)) (hs.inTable ht) (ho.waiting hw) with hq | ⟨k, hk⟩
    · exact Or.inl ((hs.entries j).symm ▸ hq)
    · exact Or.inr ⟨k, hs.pending.mpr hk⟩

/-- The request that is due is given to a handler. -/
theorem Attended.invoke (h : Attended app reserve due w) (hdue : ∀ x, due = some x → x = (i, k)) :
    Attended app reserve none { w with invoked := w.invoked ++ [(i, k)] } := by
  intro j
  refine ⟨(h j).table, (h j).answers, (h j).upgraded, fun hp => Or.inl ?_, (h j).waiting⟩
  rcases (h j).invoked hp with hin | hin
  · exact List.mem_append_left _ hin
  · exact List.mem_append_right _ (List.mem_singleton.mpr (hdue _ hin))

/-- **A request is dispatched**, and an answer to it is due. -/
theorem Attended.dispatch (h : Attended app reserve none w) {c : HttpConnection PS CP CR}
    (hup : c.Upgraded app.lib) :
    Attended app reserve (some (i, (w.server.objects i).dispatched)) (w.onServer (·.dispatch i c)) := by
  intro j
  by_cases hji : j = i
  · subst hji
    have hself := Server.objects_dispatch_self j c w.server
    refine ⟨(h j).table, ?_, ?_, ?_, fun _ hj _ => Or.inr ⟨(w.server.objects j).dispatched, ?_⟩⟩
    · show ∀ a ∈ ((w.server.dispatch j c).objects j).answers,
        a.1 < ((w.server.dispatch j c).objects j).dispatched
      rw [hself]
      exact fun a ha => Nat.lt_succ_of_lt ((h j).answers a ha)
    · show ((w.server.dispatch j c).objects j).conn.Upgraded app.lib
      rw [hself]
      exact ⟨hup.known, hup.requests⟩
    · rintro k ⟨hlt, hk, hopen⟩
      have hk' : k < ((w.server.dispatch j c).objects j).dispatched := hk
      have hopen' : ∀ a ∈ ((w.server.dispatch j c).objects j).answers, a.1 ≠ k := hopen
      rw [hself] at hk' hopen'
      rcases Nat.lt_succ_iff_lt_or_eq.mp hk' with hk' | rfl
      · exact ((h j).invoked ⟨hlt, hk', hopen'⟩).imp_right (fun hin => absurd hin (by simp))
      · exact Or.inr rfl
    -- the request just dispatched is open
    · show (w.server.dispatch j c).Pending j _
      refine ⟨(h j).table hj, ?_⟩
      rw [hself]
      exact ⟨Nat.lt_succ_self _, fun a ha => Nat.ne_of_lt ((h j).answers a ha)⟩
  · exact (h j).frame (Server.objects_modify_of_ne _ hji) Iff.rfl id (Nat.le_refl _) id
      (fun k hk => absurd hk (by simp))

/-- **A dispatched request is answered**, now or later. Its answer is queued if the connection is there. -/
theorem Attended.answered (h : Attended app reserve due w) (hk : k < (w.server.objects i).dispatched)
    (hreserve : reserve i ≤ (w.server.entries i).length) {rs : List Reply}
    (hans : Server.Answers i k rs w.server t) (hrs : rs ≠ []) (hdue : ∀ x, due = some x → x = (i, k)) :
    Attended app reserve none { w with server := t } := by
  have heffect := hans.handled.effect
  intro j
  by_cases hji : j = i
  · subst hji
    obtain ⟨given, hgiven, hne⟩ := hans.answers
    refine ⟨fun ht => ?_, ?_, ?_, ?_, fun hphase hj _ => ?_⟩
    · show j < t.allocated
      rw [heffect.allocated]
      exact (h j).table (heffect.table ht)
    · show ∀ a ∈ (t.objects j).answers, a.1 < (t.objects j).dispatched
      rw [hgiven, hans.dispatched]
      intro a ha
      rcases List.mem_append.mp ha with ha | ha
      · exact (h j).answers a ha
      · obtain ⟨r, -, rfl⟩ := List.mem_map.mp ha
        exact hk
    · show (t.conn j).Upgraded app.lib
      rw [hans.conn]
      exact (h j).upgraded
    -- what is still open was open before, and it is not the request just answered
    · rintro k' ⟨hlt, hk', hopen⟩
      have hopen' : ∀ a ∈ (t.objects j).answers, a.1 ≠ k' := hopen
      rw [hgiven] at hopen'
      have hbefore : w.server.Pending j k' := ⟨heffect.allocated ▸ hlt, hans.dispatched ▸ hk',
        fun a ha => hopen' a (List.mem_append_left _ ha)⟩
      obtain ⟨r, hr⟩ := List.exists_mem_of_ne_nil given (hne hrs)
      have hother : k' ≠ k :=
        (hopen' (k, r) (List.mem_append_right _ (List.mem_map_of_mem hr))).symm
      exact ((h j).invoked hbefore).imp_right (fun hin => absurd (Prod.mk.inj (hdue _ hin)).2 hother)
    · exact Or.inl (Nat.lt_of_le_of_lt hreserve (hans.queued hrs hphase hj))
  · refine (h j).frame (heffect.others j fun hj => hji (Option.some.inj hj).symm)
      (by rw [heffect.allocated]) heffect.table (heffect.length_entries_le j) (fun hp => ?_)
      (fun k' hk' => absurd (Prod.mk.inj (hdue _ hk')).1 hji)
    rcases heffect.phase with hd | hsame
    · exact absurd hd hp
    · exact hsame ▸ hp

/-! ## Dispatching -/

theorem Attended.runHandler (h : Attended app reserve (some (i, k)) w)
    (hk : k < (w.server.objects i).dispatched) (hreserve : reserve i ≤ (w.server.entries i).length)
    (o : HandlerOutcome) : Attended app reserve none (w.runHandler i k o).1 := by
  have hdue : ∀ x, some (i, k) = some x → x = (i, k) := fun x hx => (Option.some.inj hx).symm
  by_cases hrs : o.replies = []
  -- the handler will answer later
  · have hsame : (w.runHandler i k o).1 = { w with invoked := w.invoked ++ [(i, k)] } := by
      unfold ApiServer.runHandler Server.runHandler
      rw [hrs]
      rfl
    rw [hsame]
    exact h.invoke hdue
  · have hans := h.answered hk hreserve (Server.answers_replies i k o.replies w.server) hrs hdue
    exact hans.invoke (fun x hx => absurd hx (by simp))

theorem Attended.addHeader (h : Attended app reserve due w) (i : Nat) (header : Bytes) :
    Attended app reserve due (w.addHeader i header) := by
  unfold ApiServer.addHeader
  split
  · exact h
  · exact h.still (Server.still_setConn rfl id (fun hu => ⟨hu.known, hu.requests⟩))

/-- A request that some route matches is given to its handler. -/
theorem Attended.requestHdl (h : Attended app reserve (some (i, k)) w)
    (hk : k < (w.server.objects i).dispatched) (hreserve : reserve i ≤ (w.server.entries i).length)
    (o : HandlerOutcome) {request : HttpRequest}
    (hroute : (app.router.findRoute request.path request.path.length).isSome = true) :
    Attended app reserve none (w.requestHdl app i k o request).1 := by
  have hheaders : ∀ (headers : List Bytes) {v : ApiServer PS CP CR}, Attended app reserve none v →
      Attended app reserve none (headers.foldl (fun s header => ApiServer.addHeader i header s) v) := by
    intro headers
    induction headers with
    | nil => exact id
    | cons header headers ih => exact fun hv => ih (hv.addHeader i header)
  obtain ⟨info, hinfo⟩ := Option.isSome_iff_exists.mp hroute
  have hcalled := h.runHandler hk hreserve o
  unfold ApiServer.requestHdl HttpRouter.handle
  rw [hinfo]
  dsimp only
  split
  · exact hcalled
  · exact hheaders info.headers hcalled

/-- A request of the binary protocol is answered, or its callback will. -/
theorem Attended.handleBinary (h : Attended app reserve (some (i, k)) w)
    (hk : k < (w.server.objects i).dispatched) (hreserve : reserve i ≤ (w.server.entries i).length)
    (o : HandlerOutcome) (protocol : Bytes) {request : CR} (hcast : (app.cast request).isSome = true) :
    Attended app reserve none (w.handleBinary app i k o protocol request).1 := by
  obtain ⟨req, hreq⟩ := Option.isSome_iff_exists.mp hcast
  unfold ApiServer.handleBinary
  dsimp only
  split
  · exact h.runHandler hk hreserve o
  · rename_i hinvoked
    have hrs : ((app.api protocol).handleBinary (app.cast request)).replies ≠ [] := by
      rw [hreq] at hinvoked ⊢
      exact Api.replies_ne_nil hinvoked
    exact h.answered hk hreserve (Server.answers_replies i k _ w.server) hrs
      (fun x hx => (Option.some.inj hx).symm)

/-- An upgrade is answered by the handshake. -/
theorem Attended.upgrade (h : Attended app reserve (some (i, k)) w)
    (hk : k < (w.server.objects i).dispatched) (hreserve : reserve i ≤ (w.server.entries i).length)
    {protocol : Bytes} (hknown : (app.lib.customProtocols protocol).isSome = true) (cp : CP)
    (handshake : Bytes) :
    Attended app reserve none (w.onServer (ApiServer.upgrade i k protocol cp handshake)) := by
  have hset : Attended app reserve (some (i, k)) (w.onServer (·.setConn i { w.server.conn i with
      customParser := some cp, customProtocol := true, customProtocolId := protocol })) :=
    h.still (Server.still_setConn rfl id (fun _ => ⟨fun _ => hknown, fun _ => rfl⟩))
  have hdisp : ((w.server.setConn i { w.server.conn i with
      customParser := some cp, customProtocol := true, customProtocolId := protocol }).objects i).dispatched =
        (w.server.objects i).dispatched := by
    unfold Server.setConn
    rw [Server.objects_modify_self]
  have hanswered := hset.answered (hdisp ▸ hk) hreserve
    (Server.answers_reply i k (.custom handshake) _) (by simp) (fun x hx => (Option.some.inj hx).symm)
  exact hanswered.still (Server.still_setConn rfl (fun hw => Bool.noConfusion hw)
    (fun hu => ⟨hu.known, hu.requests⟩))

/-- The next request of a connection is one that somebody answers: it is granted an upgrade, or some route
    matches it; a custom request is one that the API takes. -/
def answerable (app : Application PS CP CR H) (c : HttpConnection PS CP CR) : Bool :=
  match c.customProtocol, c.httpRequests, c.customRequests with
  | false, request :: _, _ =>
      (Server.getCustomParser app.lib request).isSome ||
        (app.router.findRoute request.path request.path.length).isSome
  | _, _, request :: _ => (app.cast request).isSome
  | _, _, [] => true

theorem getCustomParser_known {lib : Library PS CP CR} {request : HttpRequest} {protocol : Bytes} {cp : CP}
    {handshake : Bytes} (h : Server.getCustomParser lib request = some (protocol, cp, handshake)) :
    (lib.customProtocols protocol).isSome = true := by
  unfold Server.getCustomParser at h
  split at h
  · exact absurd h (by simp)
  · split at h
    · exact absurd h (by simp)
    · rename_i info hinfo
      split at h
      · exact absurd h (by simp)
      · obtain ⟨rfl, -⟩ := Prod.mk.inj (Option.some.inj h)
        rw [hinfo]
        rfl

/-- **`handleWaitingRequests`** leaves nobody waiting in vain if the next request is answerable. -/
theorem Attended.handleWaitingRequests (h : Attended app reserve none w)
    (hreserve : reserve i ≤ (w.server.entries i).length) (o : HandlerOutcome)
    (hnext : (w.server.conn i).waitingLastHandling = false → answerable app (w.server.conn i) = true) :
    Attended app reserve none (w.handleWaitingRequests app i o).1 := by
  have hup := (h i).upgraded
  -- after the dispatch the answer to request `k` is due
  have hdispatch : ∀ c : HttpConnection PS CP CR, c.Upgraded app.lib →
      Attended app reserve (some (i, (w.server.objects i).dispatched)) (w.onServer (·.dispatch i c)) ∧
        (w.server.objects i).dispatched < ((w.server.dispatch i c).objects i).dispatched := by
    intro c hc
    refine ⟨h.dispatch hc, ?_⟩
    rw [Server.objects_dispatch_self]
    exact Nat.lt_succ_self _
  unfold ApiServer.handleWaitingRequests
  dsimp only
  split
  · exact h
  · rename_i hwait
    have hanswerable := hnext (by simpa using hwait)
    unfold answerable at hanswerable
    split
    -- an HTTP request
    · rename_i request rest hcustom hrequests
      rw [hcustom, hrequests] at hanswerable
      obtain ⟨hdue, hk⟩ := hdispatch { w.server.conn i with httpRequests := rest }
        ⟨hup.known, hup.requests⟩
      split
      · rename_i protocol cp handshake hparser
        exact hdue.upgrade hk hreserve (getCustomParser_known hparser) cp handshake
      · rename_i hparser
        rcases Bool.or_eq_true_iff.mp hanswerable with hgranted | hroute
        · exact absurd hgranted (by simp [hparser])
        · exact hdue.requestHdl hk hreserve o hroute
    -- a request of the custom protocol, which is known
    · rename_i request rest hrequests hcustom
      have hcast : (app.cast request).isSome = true := by
        split at hanswerable
        · rename_i hc hr
          exact absurd (hcustom _ _ hc hr) id
        · rename_i hr _
          obtain ⟨rfl, -⟩ := List.cons.inj (hr.symm.trans hrequests)
          exact hanswerable
        · rename_i hr _
          exact absurd (hr.symm.trans hrequests) (by simp)
      have hcustom' := hup.requests (by rw [hrequests]; simp)
      obtain ⟨hdue, hk⟩ := hdispatch { w.server.conn i with customRequests := rest }
        ⟨hup.known, fun _ => hcustom'⟩
      rw [if_pos (hup.known hcustom')]
      exact hdue.handleBinary hk hreserve o _ hcast
    · exact h

theorem handled_addHeader (i : Nat) (header : Bytes) (w : ApiServer PS CP CR) :
    Server.Handled i w.server (w.addHeader i header).server := by
  unfold ApiServer.addHeader
  split
  · exact .refl i _
  · exact .setConn ⟨rfl, rfl, rfl⟩

/-- Handlers leave the table alone, and the queues grow only. -/
theorem handled_handleWaitingRequests (app : Application PS CP CR H) (i : Nat) (o : HandlerOutcome)
    (w : ApiServer PS CP CR) :
    Server.Handled i w.server (w.handleWaitingRequests app i o).1.server := by
  have hheaders : ∀ (headers : List Bytes) {v : ApiServer PS CP CR}, Server.Handled i w.server v.server →
      Server.Handled i w.server
        (headers.foldl (fun s header => ApiServer.addHeader i header s) v).server := by
    intro headers
    induction headers with
    | nil => exact id
    | cons header headers ih => exact fun hv => ih (hv.trans (handled_addHeader i header _))
  unfold ApiServer.handleWaitingRequests
  dsimp only
  split
  · exact .refl i _
  · split
    · rename_i request rest _ _
      have hdispatch : Server.Handled i w.server
          (w.server.dispatch i { w.server.conn i with httpRequests := rest }) := .modify rfl ⟨rfl, rfl, rfl⟩
      split
      · exact hdispatch.trans (Server.handled_upgrade _ _ ⟨rfl, rfl, rfl⟩)
      · unfold ApiServer.requestHdl HttpRouter.handle
        split
        · exact hdispatch
        · have hcalled := hdispatch.trans
            (Server.handled_runHandler i (w.server.objects i).dispatched o _)
          dsimp only
          split
          · exact hcalled
          · exact hheaders _ hcalled
    · rename_i request rest _ _
      have hdispatch : Server.Handled i w.server
          (w.server.dispatch i { w.server.conn i with customRequests := rest }) :=
        .modify rfl ⟨rfl, rfl, rfl⟩
      split
      · unfold ApiServer.handleBinary
        dsimp only
        split
        · exact hdispatch.trans (Server.handled_runHandler i _ o _)
        · exact hdispatch.trans (Server.handled_replies i _ _ _)
      · exact .setConn ⟨rfl, rfl, rfl⟩
    · exact .refl i _

/-! ## Events and draining -/

/-- **A read event.** -/
theorem Attended.performRecv (h : Attended app (fun _ => 0) none w) (sock : Nat) (rs : List RecvResult)
    (now : Nat) (o : HandlerOutcome)
    (hnext : ∀ {i : Nat}, w.server.readingConnections[sock]? = some i →
      ((w.server.conn i).performRecv app.lib rs now).2 = false →
      ((w.server.conn i).performRecv app.lib rs now).1.notDead now = true →
      ((w.server.conn i).performRecv app.lib rs now).1.waitingLastHandling = false →
        answerable app ((w.server.conn i).performRecv app.lib rs now).1 = true) :
    Attended app (fun _ => 0) none (w.performRecv app sock rs now o) := by
  unfold ApiServer.performRecv
  split
  · exact h.still (.quiet rfl rfl rfl rfl id id)
  · rename_i i htab
    have hserved := hnext htab
    have hsame := HttpConnection.performRecv_same app.lib rs now (w.server.conn i)
    have hup := (h i).upgraded.performRecv rs now
    generalize (w.server.conn i).performRecv app.lib rs now = received at hserved hsame hup ⊢
    obtain ⟨c, threw⟩ := received
    dsimp only at hserved hsame hup ⊢
    have hset : Attended app (fun _ => 0) none (w.onServer (·.setConn i c)) :=
      h.still (Server.still_setConn hsame.sock (fun hw => hsame.waiting ▸ hw) (fun _ => hup))
    split
    · exact hset.still (Server.still_killConnection _ sock _)
    · rename_i hthrew
      split
      · rename_i hlive
        have hhandled := hset.handleWaitingRequests (i := i) (Nat.zero_le _) o (by
          show ((w.server.setConn i c).conn i).waitingLastHandling = false →
            answerable app ((w.server.setConn i c).conn i) = true
          rw [Server.conn_setConn_self]
          exact hserved (by simpa using hthrew) hlive)
        split
        · exact hhandled.still (Server.still_killConnection _ sock _)
        · exact hhandled
      · exact hset.still (Server.still_remove _ sock _)

theorem answerable_same {c c' : HttpConnection PS CP CR} (h : HttpConnection.SameRequests c c') :
    answerable app c' = answerable app c := by
  unfold answerable
  rw [h.customProtocol, h.httpRequests, h.customRequests]

/-- One answer is about to be popped from the entries of `i`. -/
def oneOf (i : Nat) : Nat → Nat := fun j => if j = i then 1 else 0

theorem Attended.mono (h : Attended app reserve due w) {reserve' : Nat → Nat}
    (hle : ∀ j, (w.server.conn j).waitingLastHandling = true → reserve' j ≤ reserve j) :
    Attended app reserve' due w := by
  intro j
  refine ⟨(h j).table, (h j).answers, (h j).upgraded, (h j).invoked, fun hphase hj hw => ?_⟩
  exact ((h j).waiting hphase hj hw).imp_left (Nat.lt_of_le_of_lt (hle j hw))

/-- **`handleResponse`**, while an answer for the connection is at the front of the queues: that one does
    not count any more. -/
theorem Attended.handleResponse (h : Attended app (fun _ => 0) none w)
    (hfront : 0 < (w.server.entries i).length) (r : SendResult) (now : Nat) (o : HandlerOutcome)
    (hnext : (let (c, sent) := { w.server.conn i with waitingLastHandling := false }.performSend r now
      sent || c.notDead now) = true → answerable app (w.server.conn i) = true) :
    Attended app (oneOf i) none (w.handleResponse app i r now o).1 := by
  unfold ApiServer.handleResponse
  have hsame := HttpConnection.performSend_same r now { w.server.conn i with waitingLastHandling := false }
  have hrequests := HttpConnection.performSend_sameRequests r now
    { w.server.conn i with waitingLastHandling := false }
  generalize HttpConnection.performSend r now { w.server.conn i with waitingLastHandling := false } = result
    at hsame hrequests hnext ⊢
  obtain ⟨c, sent⟩ := result
  dsimp only at hsame hrequests hnext ⊢
  have hrequests' : HttpConnection.SameRequests (w.server.conn i) c :=
    ⟨hrequests.customProtocol, hrequests.customProtocolId, hrequests.httpRequests, hrequests.customRequests⟩
  have hconn : (w.server.setConn i c).conn i = c := Server.conn_setConn_self c
  -- the flag is down, so it does not matter that the answer at the front is gone
  have hset : Attended app (oneOf i) none (w.onServer (·.setConn i c)) := by
    have hstill : w.server.Still app.lib (w.server.setConn i c) := Server.still_setConn hsame.sock
      (fun hw => absurd (hsame.waiting.symm.trans hw) (by simp)) (fun hu => hu.same hrequests')
    refine (h.still hstill).mono ?_
    · intro j hw
      unfold oneOf
      split
      · rename_i hj
        subst hj
        have hw' : ((w.server.setConn j c).conn j).waitingLastHandling = true := hw
        rw [hconn] at hw'
        exact absurd (hsame.waiting.symm.trans hw') (by simp)
      · exact Nat.le_refl 0
  split
  · split
    · exact hset.still (.quiet rfl rfl rfl rfl id id)
    · exact hset.still (Server.still_remove _ c.sock _)
  · rename_i halive
    have hlive : (sent || c.notDead now) = true := by
      cases sent <;> simp_all
    have hopen : ∀ v, v = (if sent then w.onServer (·.setConn i c) else
        (w.onServer (·.setConn i c)).onServer (·.enableEvents c.sock)) →
        Attended app (oneOf i) none v ∧ v.server.conn i = c ∧ v.server.entries i = w.server.entries i := by
      rintro v rfl
      split
      · exact ⟨hset, hconn, rfl⟩
      · have hstill := Server.still_enableEvents app.lib c.sock (w.server.setConn i c)
        exact ⟨hset.still hstill, (Server.conn_enableEvents _ _ _).trans hconn, hstill.entries i⟩
    generalize (if sent then w.onServer (·.setConn i c) else
      (w.onServer (·.setConn i c)).onServer (·.enableEvents c.sock)) = v at hopen ⊢
    obtain ⟨hv, hvconn, hventries⟩ := hopen v rfl
    refine hv.handleWaitingRequests ?_ o (fun _ => ?_)
    · rw [hventries, oneOf, if_pos rfl]
      exact hfront
    · rw [hvconn]
      exact (answerable_same hrequests').trans (hnext hlive)

theorem effect_handleResponse (app : Application PS CP CR H) (i : Nat) (r : SendResult) (now : Nat)
    (o : HandlerOutcome) (w : ApiServer PS CP CR) :
    Server.Effect (some i) w.server (w.handleResponse app i r now o).1.server := by
  unfold ApiServer.handleResponse
  have hsame := HttpConnection.performSend_same r now { w.server.conn i with waitingLastHandling := false }
  generalize HttpConnection.performSend r now { w.server.conn i with waitingLastHandling := false } = result
    at hsame ⊢
  obtain ⟨c, sent⟩ := result
  dsimp only at hsame ⊢
  have hset : Server.Effect (some i) w.server (w.server.setConn i c) := .setConn hsame.sock
  split
  · split
    · exact hset.trans (.quiet _ rfl rfl rfl rfl (.inr rfl) id)
    · exact hset.trans (.remove _ c.sock _)
  · refine Server.Effect.trans (hset.trans ?_) (handled_handleWaitingRequests app i o _).effect
    split
    · exact .refl _ _
    · exact .enableEvents _ c.sock _

/-- The answer is popped. -/
theorem Attended.pop (h : Attended app (oneOf i) none w) {q : Reply} (hpops : w.server.Pops i q) :
    Attended app (fun _ => 0) none (w.onServer (Server.popReply q)) := by
  intro j
  have hleft : oneOf i j < (w.server.entries j).length →
      0 < ((Server.popReply q w.server).entries j).length := by
    have hlen := Server.length_entries_popReply hpops j
    unfold oneOf
    omega
  obtain ⟨htab, hans, hup, hinvoked, hwaiting⟩ := h j
  cases q with
  | http resp =>
      exact ⟨htab, hans, hup, hinvoked, fun hphase hj hw => (hwaiting hphase hj hw).imp_left hleft⟩
  | custom bytes =>
      exact ⟨htab, hans, hup, hinvoked, fun hphase hj hw => (hwaiting hphase hj hw).imp_left hleft⟩

/-- **A round of draining.** -/
theorem Attended.drainOne (h : Attended app (fun _ => 0) none w) {q : Reply}
    (hfront : w.server.front = some (i, q)) (r : SendResult) (now : Nat) (o : HandlerOutcome)
    (hnext : w.server.survives app.lib i q r now = true → answerable app (w.server.conn i) = true) :
    Attended app (fun _ => 0) none (w.drainOne app i q (Server.popReply q) r now o) := by
  have hadd : Attended app (fun _ => 0) none (w.onServer (·.addReply app.lib now i q)) :=
    h.still (Server.still_addReply app.lib now i q w.server)
  have hrequests : HttpConnection.SameRequests (w.server.conn i)
      ((w.server.addReply app.lib now i q).conn i) := by
    unfold Server.conn Server.addReply
    cases q <;> rw [Server.objects_modify_self] <;> exact ⟨rfl, rfl, rfl, rfl⟩
  have hfront' : (w.server.addReply app.lib now i q).front = some (i, q) := hfront
  have hresponse := hadd.handleResponse (Server.length_entries_of_front hfront') r now o
    (fun hs => (answerable_same hrequests).trans (hnext hs))
  have hpops := (effect_handleResponse app i r now o (w.onServer (·.addReply app.lib now i q))).pops hfront'
  unfold ApiServer.drainOne
  generalize (w.onServer (·.addReply app.lib now i q)).handleResponse app i r now o = result
    at hresponse hpops ⊢
  obtain ⟨v, threw⟩ := result
  dsimp only at hresponse hpops ⊢
  have hweak : Attended app (fun _ => 0) none v := hresponse.mono (fun _ _ => Nat.zero_le _)
  split
  · exact hweak
  · rename_i hstop
    split
    -- the exception leaves the answer where it is
    · refine hweak.still (.quiet rfl rfl rfl rfl (fun hp => ?_) id)
      exact absurd (by simp [hp]) hstop
    · exact hresponse.pop hpops

/-- **One accepted connection.** -/
theorem Attended.acceptOne (h : Attended app (fun _ => 0) none w) (now sock : Nat) :
    Attended app (fun _ => 0) none (w.onServer (·.acceptOne app.lib now sock)) := by
  intro j
  by_cases hja : j = w.server.allocated
  -- the new connection does not wait
  · subst hja
    have hself := Server.objects_acceptOne_self app.lib now sock w.server
    refine ⟨fun _ => Nat.lt_succ_self _, ?_, ?_, fun hp => ?_, fun _ _ hw => ?_⟩
    · show ∀ a ∈ ((w.server.acceptOne app.lib now sock).objects _).answers, _
      rw [hself]
      exact fun a ha => absurd ha List.not_mem_nil
    · show ((w.server.acceptOne app.lib now sock).objects _).conn.Upgraded app.lib
      rw [hself]
      exact ⟨fun hc => Bool.noConfusion hc, fun hr => absurd rfl hr⟩
    · have hk : _ < ((w.server.acceptOne app.lib now sock).objects w.server.allocated).dispatched := hp.2.1
      rw [hself] at hk
      exact absurd hk (Nat.not_lt_zero _)
    · have hw' : ((w.server.acceptOne app.lib now sock).objects w.server.allocated).conn.waitingLastHandling =
          true := hw
      rw [hself] at hw'
      exact Bool.noConfusion hw'
  · refine (h j).frame (Server.objects_acceptOne_of_ne app.lib now sock hja) ?_ (fun ht => ?_) (Nat.le_refl _)
      id (fun k hk => absurd hk (by simp))
    · show j < w.server.allocated + 1 ↔ j < w.server.allocated
      omega
    · exact (getElem?_insertIfNew ht).resolve_left (fun heq => hja heq.2)

theorem Attended.performAccept (h : Attended app (fun _ => 0) none w) (socks : List Nat) (now : Nat) :
    Attended app (fun _ => 0) none (w.onServer (·.performAccept app.lib socks now)) := by
  induction socks generalizing w with
  | nil => exact h
  | cons sock socks ih => exact ih (h.acceptOne now sock)

/-! ## Steps -/

/-- The connection whose next request a step dispatches, if it has one. -/
def dispatching (app : Application PS CP CR H) (w : ApiServer PS CP CR) :
    Server.Input → Option (HttpConnection PS CP CR)
  | .read rs now _ =>
      match w.server.phase with
      | .events (.read sock :: _) =>
          match w.server.readingConnections[sock]? with
          | none => none
          | some i =>
              let (c, threw) := (w.server.conn i).performRecv app.lib rs now
              if !threw && c.notDead now && !c.waitingLastHandling then some c else none
      | _ => none
  | .drain r now _ =>
      match w.server.front with
      | none => none
      | some (i, q) => if w.server.survives app.lib i q r now then some (w.server.conn i) else none
  | _ => none

/-- A request that is dispatched is answerable. -/
def Served (app : Application PS CP CR H) (w : ApiServer PS CP CR) (input : Server.Input) : Prop :=
  ∀ c ∈ dispatching app w input, answerable app c = true

instance (app : Application PS CP CR H) (w : ApiServer PS CP CR) (input : Server.Input) :
    Decidable (Served app w input) :=
  inferInstanceAs (Decidable (∀ c ∈ dispatching app w input, answerable app c = true))

/-- A step that dispatches nothing. -/
theorem Attended.serverStep (h : Attended app (fun _ => 0) none w) {input : Server.Input}
    (hread : ∀ rs now o, input ≠ .read rs now o) (hdrain : ∀ r now o, input ≠ .drain r now o)
    (hstep : w.server.step app.lib input = some t) : Attended app (fun _ => 0) none { w with server := t } := by
  have hquiet : ∀ phase, w.server.phase ≠ .deadlocked →
      Attended app (fun _ => 0) none (w.onServer (fun s => { s with phase := phase })) :=
    fun phase hp => h.still (.quiet rfl rfl rfl rfl (fun hd => absurd hd hp) id)
  unfold Server.step at hstep
  split at hstep
  · exact absurd hstep (by simp)
  · split at hstep
    · rename_i hphase
      exact Option.some.inj hstep ▸ hquiet _ (by simp [hphase])
    · rename_i hphase
      exact Option.some.inj hstep ▸ (hquiet _ (by simp [hphase])).performAccept _ _
    · exact absurd rfl (hread _ _ _)
    · rename_i hphase
      exact Option.some.inj hstep ▸
        (hquiet (.events _) (by simp [hphase])).still (Server.still_performSend _ _ _ _ _)
    · rename_i hphase
      exact Option.some.inj hstep ▸
        (hquiet (.events _) (by simp [hphase])).still (Server.still_killConnection _ _ _)
    · rename_i hphase
      exact Option.some.inj hstep ▸ hquiet _ (by simp [hphase])
    · exact absurd rfl (hdrain _ _ _)
    · rename_i hphase
      split at hstep
      · exact Option.some.inj hstep ▸ h.still (Server.still_cleanUp _ _ _ (by simp [hphase]))
      · exact absurd hstep (by simp)
    · split at hstep
      · rename_i hanswer
        exact Option.some.inj hstep ▸ h.answered hanswer.1.2.1 (Nat.zero_le _)
          (Server.answers_reply _ _ _ _) (by simp) (fun x hx => absurd hx (by simp))
      · exact absurd hstep (by simp)
    · exact absurd hstep (by simp)

/-- **A step keeps the invariant** if the request it dispatches, if any, is answerable. -/
theorem Attended.step (h : Attended app (fun _ => 0) none w) {input : Server.Input}
    (hserved : Served app w input) (hstep : w.step app input = some w') :
    Attended app (fun _ => 0) none w' := by
  have hothers : (∀ rs now o, input ≠ .read rs now o) → (∀ r now o, input ≠ .drain r now o) →
      (w.server.step app.lib input).map (fun s => { w with server := s }) = some w' →
        Attended app (fun _ => 0) none w' := by
    intro hread hdrain hsome
    obtain ⟨t, ht, rfl⟩ := Option.map_eq_some_iff.mp hsome
    exact h.serverStep hread hdrain ht
  unfold ApiServer.step at hstep
  split at hstep
  · rename_i rs now o sock rest hundef hphase
    have hquiet : Attended app (fun _ => 0) none (w.onServer (fun s => { s with phase := .events rest })) :=
      h.still (.quiet rfl rfl rfl rfl (fun hd => absurd (hphase.symm.trans hd) (by simp)) id)
    refine Option.some.inj hstep ▸ hquiet.performRecv sock rs now o (fun {i} htab => ?_)
    have htab' : w.server.readingConnections[sock]? = some i := htab
    intro hthrew hlive hwait
    refine hserved _ ?_
    unfold dispatching
    rw [hphase]
    dsimp only
    rw [htab']
    refine if_pos ?_
    simp only [Bool.and_eq_true, Bool.not_eq_true']
    exact ⟨⟨hthrew, hlive⟩, hwait⟩
  · exact absurd hstep (by simp)
  · rename_i r now o hundef hphase
    have hround : ∀ {i : Nat} {q : Reply}, w.server.front = some (i, q) →
        Attended app (fun _ => 0) none (w.drainOne app i q (Server.popReply q) r now o) := by
      intro i q hfront
      refine h.drainOne hfront r now o ?_
      intro hsurvives
      refine hserved _ ?_
      unfold dispatching
      rw [hfront]
      exact if_pos hsurvives
    split at hstep
    · rename_i q rest hq
      exact Option.some.inj hstep ▸ hround (Server.front_http hq)
    · rename_i q rest hr hq
      exact Option.some.inj hstep ▸ hround (Server.front_custom hr hq)
    · exact absurd hstep (by simp)
  · exact absurd hstep (by simp)
  · split at hstep
    · exact hothers (by simp) (by simp) hstep
    · exact absurd hstep (by simp)
  · rename_i hread hdrain _ _ _
    exact hothers hread hdrain hstep

/-! ## Runs -/

theorem Attended.init (app : Application PS CP CR H) (listenSock : Nat) :
    Attended app (fun _ => 0) none (init app listenSock) := by
  intro i
  refine ⟨fun {sock} ht => ?_, fun _ ha => absurd ha List.not_mem_nil, ?_,
    fun hp => absurd hp.1 (Nat.not_lt_zero _), fun _ _ hw => Bool.noConfusion hw⟩
  · have hempty : (∅ : Std.ExtTreeMap Nat Nat)[sock]? = some i := ht
    exact absurd hempty (by simp)
  · exact ⟨fun hc => Bool.noConfusion hc, fun hr => absurd rfl hr⟩

/-- Between two calls of `handleEvents`, a connection in the table that waits has an answer in one of the
    queues, or a handler was called for a request of it and has not answered yet. -/
def AnswerDue (w : ApiServer PS CP CR) : Prop :=
  w.server.phase = .idle → ∀ i, w.server.InTable i → (w.server.conn i).waitingLastHandling = true →
    w.server.entries i ≠ [] ∨ ∃ k, (i, k) ∈ w.invoked ∧ w.server.Pending i k

theorem Attended.answerDue (h : Attended app (fun _ => 0) none w) : AnswerDue w := by
  intro hphase i hi hw
  rcases (h i).waiting (by simp [hphase]) hi hw with hq | ⟨k, hk⟩
  · exact Or.inl (List.ne_nil_of_length_pos hq)
  · rcases (h i).invoked hk with hin | hin
    · exact Or.inr ⟨k, hin, hk⟩
    · exact absurd hin (by simp)

/-- **Nobody waits in vain**: in a run in which only answerable requests are dispatched. -/
theorem answer_always_due (app : Application PS CP CR H) (listenSock : Nat) {inputs : List Server.Input}
    (h : Along (step app) (Served app) (init app listenSock) inputs) :
    Always (step app) AnswerDue (init app listenSock) inputs :=
  Along.always (Attended app (fun _ => 0) none) (fun hw hserved hstep => hw.step hserved hstep)
    (fun hw => hw.answerDue) h (.init app listenSock)

/-- A site with one route and no custom protocol. -/
def site (path : Bytes) : Application Unit Unit Unit Unit where
  lib := HttpConnection.oneGetLibrary
  router := HttpRouter.addRoute path () [] ∅
  api := fun _ => .new id
  cast := fun _ => none

/-- `GET /a` comes in; its handler, if there is one, answers after the call of `handleEvents`, and the answer
    is drained by the next. -/
def getThenAnswer : List Server.Input :=
  [.poll [.accept], .accept [5] 0, .lock, .finish 0, .poll [.read 5],
    .read [.data HttpConnection.oneGet, .again] 0 ⟨[], false⟩, .lock, .finish 0,
    .answer 0 0 (.http ⟨200, ascii "hello", []⟩), .poll [], .lock,
    .drain (.accepted 1000) 0 ⟨[], false⟩, .finish 0]

theorem getThenAnswer_due :
    ((init (site (ascii "/a")) 3).run (site (ascii "/a")) getThenAnswer).isSome = true ∧
      Always (step (site (ascii "/a"))) AnswerDue (init (site (ascii "/a")) 3) getThenAnswer :=
  ⟨by decide +kernel, answer_always_due (site (ascii "/a")) 3 (by decide +kernel)⟩

/-- The two calls of `handleEvents` that accept a connection and read `GET /a` from it. -/
def unroutedGet : List Server.Input := getThenAnswer.take 8

theorem unroutedGet_waits :
    ((init (site (ascii "/page")) 3).run (site (ascii "/page")) unroutedGet).map (fun w =>
      decide (w.server.phase = .idle ∧ w.server.readingConnections[(w.server.conn 0).sock]? = some 0 ∧
        (w.server.conn 0).waitingLastHandling = true ∧ w.server.entries 0 = [] ∧ w.invoked = [])) =
      some true := by decide +kernel

/-- No route matches, and the connection waits for an answer that nobody will give. -/
theorem unroutedGet_not_due : ¬ Always (step (site (ascii "/page"))) AnswerDue
    (init (site (ascii "/page")) 3) unroutedGet := by
  intro h
  obtain ⟨w, hw, hstate⟩ := Option.map_eq_some_iff.mp unroutedGet_waits
  obtain ⟨hphase, htab, hwait, hnone, hinvoked⟩ := of_decide_eq_true hstate
  rcases h unroutedGet w (List.prefix_refl _) hw hphase 0 htab hwait with hq | ⟨k, hk, -⟩
  · exact hq hnone
  · rw [hinvoked] at hk
    exact absurd hk List.not_mem_nil

end ApiServer
end HttpApi
end Hiaux
