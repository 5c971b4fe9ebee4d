import Hiaux.HttpServer.Correctness.Drain
import Hiaux.HttpServer.Correctness.Messages

/-!
# `HttpServer.Correctness.Order` — responses leave a connection in request order

Every step of the loop keeps the invariant, so it holds in every state of a run. Of the environment this
takes (`Allowed`): a batch reports a socket readable at most once, as `epoll` and `kqueue` do; a descriptor
just accepted is new, and not that of a connection that is still held; and handlers answer once and do not
throw.
-/

namespace Hiaux
namespace HttpServer

open Lib Network

variable {PS CP CR : Type}

namespace Server

variable {s s' : Server PS CP CR} {i j : Nat}

/-! ## Events of a connection -/

/-- The next notification of the batch. -/
theorem Strong.next {held : Nat → Prop} (h : Strong held s) {n : Notification} {rest : List Notification}
    (hphase : s.phase = .events (n :: rest)) : Strong held { s with phase := .events rest } := by
  have hreads : ∃ l, s.reads = l ++ { s with phase := .events rest }.reads := by
    unfold reads
    rw [hphase]
    cases n with
    | read sock => exact ⟨[sock], rfl⟩
    | _ => exact ⟨[], rfl⟩
  obtain ⟨l, hl⟩ := hreads
  refine h.shrink rfl rfl rfl rfl ?_ ?_ (fun ht => ht)
  · exact (List.nodup_append.mp (hl ▸ h.reads_nodup)).2.1
  · intro _ _ sock hr
    have hr' : sock ∈ { s with phase := .events rest }.reads := hr
    unfold MayRead
    rw [hphase, hl]
    exact List.mem_append_right l hr'

/-- A connection in the table that is read and is not waiting is settled: the batch has no other read of
    it, and the answer to its last request has been added. -/
theorem Strong.settled_of_read {held : Nat → Prop} (h : Strong held s) {sock : Nat}
    {rest : List Notification} (hphase : s.phase = .events (.read sock :: rest))
    (ht : s.readingConnections[sock]? = some i) (hwait : (s.conn i).waitingLastHandling = false) :
    ¬ { s with phase := .events rest }.MayRead sock ∧
      (s.objects i).dispatched = (s.objects i).added.length ∧
      (s.objects i).Answered (s.objects i).dispatched ∧ s.entries i = [] := by
  obtain ⟨hi, hsock⟩ := h.table ht
  have hreads : s.reads = sock :: { s with phase := .events rest }.reads := by
    unfold reads
    rw [hphase]
    rfl
  have hnodup := h.reads_nodup
  rw [hreads] at hnodup
  refine ⟨(List.nodup_cons.mp hnodup).1, ?_⟩
  cases h.stage hi with
  | settled count answered none => exact ⟨count, answered, none⟩
  | handling count answered open_ none waiting => exact absurd (waiting.symm.trans hwait) (by simp)
  | queued r count answered one mem waiting =>
      -- a queued answer keeps the connection waiting, or its one read is over
      rcases waiting with waiting | waiting
      · exact absurd (waiting.symm.trans hwait) (by simp)
      · refine absurd ?_ waiting
        unfold MayRead
        rw [hphase, hsock, hreads]
        exact List.mem_cons_self
  | lost count answered none gone =>
      refine absurd ?_ gone
      unfold InTable
      rw [hsock]
      exact ht

/-- **A read event.** -/
theorem Strong.performRecv (h : Strong (fun _ => False) s) {sock : Nat} {rest : List Notification}
    (hphase : s.phase = .events (.read sock :: rest)) (lib : Library PS CP CR) (rs : List RecvResult)
    (now : Nat) {o : HandlerOutcome} (ho : HandlerOutcome.Once o) :
    Fine (fun _ => False) ({ s with phase := .events rest }.performRecv lib sock rs now o) := by
  have h0 := h.next hphase
  unfold Server.performRecv
  split
  · exact (h0.delSocket sock).fine
  · rename_i i ht
    obtain ⟨hi, hsock⟩ := h.table ht
    have h1 : Strong (· = i) { s with phase := .events rest } := by
      refine h0.weaken ?_
      rintro j rfl
      exact Or.inl (h0.owned_of_table ht)
    have hsame := HttpConnection.performRecv_same lib rs now (s.conn i)
    have hconn : { s with phase := .events rest }.conn i = s.conn i := rfl
    rw [hconn]
    generalize (s.conn i).performRecv lib rs now = received at hsame
    obtain ⟨c, threw⟩ := received
    dsimp only at hsame ⊢
    have h2 : Strong (· = i) ({ s with phase := .events rest }.setConn i c) := h1.setConn hi rfl hsame
    have hself : ({ s with phase := .events rest }.setConn i c).objects i =
        { s.objects i with conn := c } := objects_modify_self _
    have hnoheld : ∀ t : Server PS CP CR, ∀ j, False → t.Owned j ∨ j = i := fun _ _ hf => hf.elim
    split
    · exact (h2.killConnection sock).fine.weaken (hnoheld _)
    · split
      -- the connection is alive: its next request may be dispatched
      · obtain ⟨hthrew, hfine, -⟩ := h2.handleWaitingRequests hi rfl lib ho (by
          intro hwait
          rw [conn_setConn_self] at hwait ⊢
          obtain ⟨hread, hcount, hanswered, hnone⟩ :=
            h.settled_of_read hphase ht (hsame.waiting.symm.trans hwait)
          rw [hself, hsame.sock, hsock]
          exact ⟨hread, hcount, hanswered, hnone⟩)
        rw [hthrew, if_neg (by simp)]
        exact hfine.weaken (hnoheld _)
      · exact (h2.remove sock).fine.weaken (hnoheld _)

/-- **A write event.** -/
theorem Strong.performSend (h : Strong (fun _ => False) s) (sock : Nat) (r : SendResult) (now : Nat) :
    Strong (fun _ => False) (s.performSend sock r now) := by
  unfold Server.performSend
  split
  · exact h
  · rename_i i ht
    have h1 : Strong (· = i) s := by
      refine h.weaken ?_
      rintro j rfl
      exact Or.inl (h.owned_of_table ht)
    have h2 := h1.setConn (h.table ht).1 rfl (HttpConnection.performSend_same r now (s.conn i))
    dsimp only
    split
    · exact (h2.remove sock).weaken (fun _ hf => hf.elim)
    · exact h2.weaken (fun _ hf => hf.elim)

/-! ## Accepting -/

/-- A descriptor that no connection still held has. -/
def Fresh (s : Server PS CP CR) (sock : Nat) : Prop := ∀ i, s.Owned i → (s.conn i).sock ≠ sock

theorem Strong.lookup_fresh (h : Strong (fun _ => False) s) {sock : Nat} (hfresh : s.Fresh sock) :
    s.readingConnections[sock]? = none := by
  cases ht : s.readingConnections[sock]? with
  | none => rfl
  | some i => exact absurd (h.table ht).2 (hfresh i (h.owned_of_table ht))

section

variable {lib : Library PS CP CR} {now sock : Nat}

variable (lib now sock) in
theorem objects_acceptOne_self (s : Server PS CP CR) :
    (s.acceptOne lib now sock).objects s.allocated = ⟨.new lib sock now, 0, [], []⟩ :=
  Function.update_self _ _ _

variable (lib now sock) in
theorem objects_acceptOne_of_ne (h : j ≠ s.allocated) :
    (s.acceptOne lib now sock).objects j = s.objects j := Function.update_of_ne h _ _

/-- Who is in the table after a connection was accepted. -/
theorem lookup_acceptOne (hnone : s.readingConnections[sock]? = none) {sock' : Nat} :
    (s.acceptOne lib now sock).readingConnections[sock']? =
      if sock' = sock then some s.allocated else s.readingConnections[sock']? := by
  have hnot : sock ∉ s.readingConnections := by
    rw [Std.ExtTreeMap.mem_iff_isSome_getElem?, hnone]
    simp
  show (s.readingConnections.insertIfNew sock s.allocated)[sock']? = _
  rw [Std.ExtTreeMap.getElem?_insertIfNew]
  by_cases hs : sock' = sock
  · subst hs
    rw [if_pos ⟨compare_eq_iff_eq.mpr rfl, hnot⟩, if_pos rfl]
  · have hcmp : ¬ (compare sock sock' = .eq ∧ sock ∉ s.readingConnections) := by
      rintro ⟨he, -⟩
      exact hs (compare_eq_iff_eq.mp he).symm
    rw [if_neg hcmp, if_neg hs]

/-- The connections held before an accept are held after it, and the new one besides. -/
theorem Owned.of_acceptOne (hnone : s.readingConnections[sock]? = none)
    (hj : (s.acceptOne lib now sock).Owned j) : j = s.allocated ∨ s.Owned j := by
  by_cases hja : j = s.allocated
  · exact Or.inl hja
  · refine Or.inr ?_
    have hobj := objects_acceptOne_of_ne lib now sock hja
    rcases hj with hj | hj | ⟨k, hlt, hk⟩
    · refine Or.inl ?_
      unfold InTable conn at hj ⊢
      rw [lookup_acceptOne hnone, hobj] at hj
      split at hj
      · exact absurd (Option.some.inj hj).symm hja
      · exact hj
    · exact Or.inr (Or.inl hj)
    · have hlt' : j < s.allocated + 1 := hlt
      rw [hobj] at hk
      exact Or.inr (Or.inr ⟨k, by omega, hk⟩)

/-- **One accepted connection.** -/
theorem Strong.acceptOne (h : Strong (fun _ => False) s) (hfresh : s.Fresh sock) :
    Strong (fun _ => False) (s.acceptOne lib now sock) := by
  -- the table has no entry for the new descriptor, so `insert` takes effect
  have hnone := h.lookup_fresh hfresh
  have hself := objects_acceptOne_self lib now sock s
  have hne : ∀ {j}, j ≠ s.allocated → (s.acceptOne lib now sock).objects j = s.objects j :=
    objects_acceptOne_of_ne lib now sock
  have hnew : ((s.acceptOne lib now sock).conn s.allocated).sock = sock := by
    unfold conn
    rw [hself]
    rfl
  have hold : ∀ {j}, j ≠ s.allocated → (s.acceptOne lib now sock).conn j = s.conn j :=
    fun hj => congrArg Object.conn (hne hj)
  have hent : ∀ j, (s.acceptOne lib now sock).entries j = s.entries j := fun _ => rfl
  have halloc : (s.acceptOne lib now sock).allocated = s.allocated + 1 := rfl
  have hread : ∀ sock', (s.acceptOne lib now sock).MayRead sock' → s.MayRead sock' := fun _ hr => hr
  refine ⟨?_, ?_, ?_, h.reads_nodup, ?_, ?_⟩
  · intro sock' j hj
    rw [lookup_acceptOne hnone] at hj
    split at hj
    · rename_i hs
      obtain rfl := Option.some.inj hj
      exact ⟨Nat.lt_succ_self _, hnew.trans hs.symm⟩
    · obtain ⟨hlt, hs⟩ := h.table hj
      rw [hold (Nat.ne_of_lt hlt)]
      exact ⟨Nat.lt_succ_of_lt hlt, hs⟩
  · intro j hj
    exact h.fresh (Nat.le_of_succ_le hj)
  -- an old connection that is still held has another descriptor than the new one
  · have hclash : ∀ {j}, s.Owned j → j ≠ s.allocated →
        ((s.acceptOne lib now sock).conn j).sock ≠ ((s.acceptOne lib now sock).conn s.allocated).sock := by
      intro j hj hja
      rw [hnew, hold hja]
      exact hfresh j hj
    intro a b ha hb hs
    have ha' := Owned.of_acceptOne hnone (ha.elim id False.elim)
    have hb' := Owned.of_acceptOne hnone (hb.elim id False.elim)
    by_cases haa : a = s.allocated
    · by_cases hba : b = s.allocated
      · exact haa.trans hba.symm
      · rw [haa] at hs
        exact absurd hs.symm (hclash (hb'.resolve_left hba) hba)
    · by_cases hba : b = s.allocated
      · rw [hba] at hs
        exact absurd hs (hclash (ha'.resolve_left haa) haa)
      · rw [hold haa, hold hba] at hs
        exact h.unique (Or.inl (ha'.resolve_left haa)) (Or.inl (hb'.resolve_left hba)) hs
  · intro j hj
    by_cases hja : j = s.allocated
    · subst hja
      exact stage_settled hself rfl (fun k hk => absurd hk (Nat.not_lt_zero k)) (h.fresh (Nat.le_refl _))
    · refine (h.stage (by omega)).frame (hne hja) (hent j) (fun _ => hread) ?_
      intro hin
      unfold InTable at hin ⊢
      rw [lookup_acceptOne hnone, hold hja] at hin
      split at hin
      · exact absurd (Option.some.inj hin).symm hja
      · exact hin
  · intro j hj
    by_cases hja : j = s.allocated
    · rw [hja, hself]
      exact ⟨by simp, by simp, by simp, rfl⟩
    · rw [hne hja]
      exact h.sound (by omega)

/-- **An accept event.** -/
theorem Strong.performAccept {socks : List Nat} (h : Strong (fun _ => False) s) (hnodup : socks.Nodup)
    (hfresh : ∀ sock ∈ socks, s.Fresh sock) :
    Strong (fun _ => False) (s.performAccept lib socks now) := by
  unfold Server.performAccept
  induction socks generalizing s with
  | nil => exact h
  | cons sock socks ih =>
      obtain ⟨hnot, hnodup⟩ := List.nodup_cons.mp hnodup
      have hsock : s.Fresh sock := hfresh sock List.mem_cons_self
      refine ih (h.acceptOne hsock) hnodup ?_
      intro sock' hmem i hi
      -- the descriptors still to come differ from the one just accepted
      by_cases hia : i = s.allocated
      · unfold conn
        rw [hia, objects_acceptOne_self]
        intro (he : sock = sock')
        exact hnot (he ▸ hmem)
      · unfold conn
        rw [objects_acceptOne_of_ne lib now sock hia]
        exact hfresh sock' (List.mem_cons_of_mem sock hmem) i
          ((Owned.of_acceptOne (h.lookup_fresh hsock) hi).resolve_left hia)

end

/-! ## The other steps -/

/-- **A batch arrives**; each socket is reported readable at most once. -/
theorem Strong.poll (h : Strong (fun _ => False) s) (hphase : s.phase = .idle)
    {batch : List Notification} (hnodup : { s with phase := .events batch }.reads.Nodup) :
    Strong (fun _ => False) { s with phase := .events batch } := by
  refine h.shrink rfl rfl rfl rfl hnodup ?_ (fun ht => ht)
  intro _ _ sock _
  unfold MayRead
  rw [hphase]
  exact True.intro

theorem Strong.lock (h : Strong (fun _ => False) s) :
    Strong (fun _ => False) { s with phase := .draining } :=
  h.shrink rfl rfl rfl rfl List.nodup_nil (fun _ _ _ hr => hr.elim) (fun ht => ht)

/-- **The end of a round**: the queues are empty, so any connection may be read again. -/
theorem Strong.finish (h : Strong (fun _ => False) s) (hresp : s.respQueue = [])
    (hcustom : s.customRespQueue = []) (now : Nat) :
    Fine (fun _ => False) { s.cleanUpDeadConnections now with phase := .idle } := by
  have hnil : ∀ j, s.entries j = [] := by
    intro j
    simp [entries, hresp, hcustom]
  have hidle : Strong (fun _ => False) { s with phase := .idle } :=
    h.shrink rfl rfl rfl rfl List.nodup_nil (fun j hj => absurd (hnil j) hj) (fun ht => ht)
  unfold cleanUpDeadConnections
  split
  · exact hidle.fine
  · split
    · exact hidle.fine
    · exact ⟨⟨hidle.safe.sound, hidle.safe.one⟩, fun hu => absurd hu (by simp)⟩

/-- **An answer from outside the loop.** It may also come while the loop is stuck. -/
theorem Fine.answer (h : Fine (fun _ => False) s) (hu : s.undefined = false) {k : Nat}
    (hk : s.Pending i k) {r : Reply} (hblocked : s.blocked r = false) :
    Fine (fun _ => False) (s.reply i k r) := by
  have hdraining : ∀ resp, r = .http resp → s.phase ≠ .draining := by
    rintro resp rfl hp
    simp [blocked, hp] at hblocked
  by_cases hdead : s.phase = .deadlocked
  -- the loop stays where it is
  · have hsafe := h.safe.addAnswer hk r
    rcases reply_cases i k r s with ⟨-, hp, -⟩ | ⟨-, ⟨-, heq⟩ | ⟨j, -, heq⟩⟩
    · exact absurd (hdead.symm.trans hp) (by simp)
    · rw [heq]
      exact ⟨hsafe, fun _ hp => absurd hdead hp⟩
    · rw [heq]
      cases r <;> exact ⟨⟨hsafe.sound, hsafe.one⟩, fun _ hp => absurd hdead hp⟩
  · have h1 : Strong (· = i) s := by
      refine (h.strong hu hdead).weaken ?_
      rintro j rfl
      exact Or.inl (Or.inr (Or.inr ⟨k, hk⟩))
    obtain ⟨h2, -⟩ := h1.reply hk rfl r hdraining
    exact (h2.weaken (fun _ hf => hf.elim)).fine

/-! ## Runs -/

/-- What the environment promises of an input. -/
def Allowed (s : Server PS CP CR) : Input → Prop
  | .poll batch => { s with phase := .events batch }.reads.Nodup
  | .accept socks _ => socks.Nodup ∧ ∀ sock ∈ socks, s.Fresh sock
  | .read _ _ o => HandlerOutcome.Once o
  | .drain _ _ o => HandlerOutcome.Once o
  | _ => True

/-- **Every step keeps the invariant.** -/
theorem Fine.step {lib : Library PS CP CR} {input : Input} (h : Fine (fun _ => False) s)
    (hallowed : s.Allowed input) (hstep : s.step lib input = some s') : Fine (fun _ => False) s' := by
  have hu : s.undefined = false := by
    by_contra hne
    unfold Server.step at hstep
    rw [if_pos (by simpa using hne)] at hstep
    exact absurd hstep (by simp)
  have hstrong : ∀ {p}, s.phase = p → p ≠ .deadlocked → Strong (fun _ => False) s :=
    fun hp hne => h.strong hu (hp ▸ hne)
  -- one case for each pair of input and phase in `step`
  have hdrain := hstep
  unfold Server.step at hstep
  rw [if_neg (by simp [hu])] at hstep
  split at hstep
  · rename_i batch hphase
    rw [← Option.some.inj hstep]
    exact ((hstrong hphase (by simp)).poll hphase hallowed).fine
  · rename_i socks now rest hphase
    rw [← Option.some.inj hstep]
    exact (((hstrong hphase (by simp)).next hphase).performAccept hallowed.1 hallowed.2).fine
  · rename_i rs now o sock rest hphase
    rw [← Option.some.inj hstep]
    exact (hstrong hphase (by simp)).performRecv hphase lib rs now hallowed
  · rename_i r now sock rest hphase
    rw [← Option.some.inj hstep]
    exact (((hstrong hphase (by simp)).next hphase).performSend sock r now).fine
  · rename_i sock rest hphase
    rw [← Option.some.inj hstep]
    exact (((hstrong hphase (by simp)).next hphase).killConnection sock).fine
  · rename_i hphase
    rw [← Option.some.inj hstep]
    exact (hstrong hphase (by simp)).lock.fine
  · rename_i r now o hphase
    exact (hstrong hphase (by simp)).drain hphase lib hallowed hu hdrain
  · rename_i now hphase
    split at hstep
    · rename_i hnil
      rw [← Option.some.inj hstep]
      exact (hstrong hphase (by simp)).finish hnil.1 hnil.2 now
    · exact absurd hstep (by simp)
  · split at hstep
    · rename_i hanswer
      rw [← Option.some.inj hstep]
      exact h.answer hu hanswer.1 hanswer.2
    · exact absurd hstep (by simp)
  · exact absurd hstep (by simp)

theorem not_owned_init (lib : Library PS CP CR) (listenSock j : Nat) : ¬ (init lib listenSock).Owned j := by
  rintro (hj | hj | ⟨k, hk, -⟩)
  · exact absurd hj (by simp [InTable, init])
  · exact hj rfl
  · exact absurd hk (Nat.not_lt_zero j)

theorem Strong.init (lib : Library PS CP CR) (listenSock : Nat) :
    Strong (fun _ => False) (init lib listenSock) := by
  refine ⟨fun ht => absurd ht (by simp [Server.init]), fun _ => rfl, ?_, List.nodup_nil,
    fun hi => absurd hi (Nat.not_lt_zero _), fun hi => absurd hi (Nat.not_lt_zero _)⟩
  intro i j hi
  exact absurd (hi.elim id False.elim) (not_owned_init lib listenSock i)

/-- **Responses leave a connection in request order.** In every state of every run in which handlers answer
    once and do not throw: a connection has at most one request that is being handled; the `k`-th response
    added to it is the one answer its handler has given for the `k`-th request dispatched on it; and what
    the socket has taken is a prefix of these responses, one after the other. -/
theorem responses_in_request_order (lib : Library PS CP CR) (listenSock : Nat) {inputs : List Input}
    (hallowed : Along (step lib) Allowed (init lib listenSock) inputs)
    (hrun : (init lib listenSock).run lib inputs = some s) {i : Nat} (hi : i < s.allocated) :
    (∀ k k', s.Pending i k → s.Pending i k' → k = k') ∧
    (∀ k r, ((s.objects i).added.map Prod.fst)[k]? = some r →
      k < (s.objects i).dispatched ∧ ∀ r', (k, r') ∈ (s.objects i).answers ↔ r' = r) ∧
    (s.conn i).accepted <+: ((s.objects i).added.map Prod.snd).flatten := by
  have hsafe : Safe s := (hallowed.invariant (Fine fun _ => False) Fine.step
    (Strong.init lib listenSock).fine hrun).safe
  have hsound := hsafe.sound hi
  refine ⟨fun k k' hk hk' => hsafe.one hk hk', ?_, ?_⟩
  · intro k r hk
    have hmem := hsound.paired hk
    refine ⟨hsound.bounded _ hmem, fun r' => ⟨?_, ?_⟩⟩
    · intro hr'
      exact (Prod.mk.inj (List.inj_on_of_nodup_map hsound.once hr' hmem rfl)).2
    · rintro rfl
      exact hmem
  · rw [← hsound.output]
    unfold HttpConnection.output
    rw [List.append_assoc]
    exact List.prefix_append _ _

/-- A connection is accepted and two requests are read on it, the second before the first is answered; both
    are answered, and the socket takes the first response and a part of the second. -/
def twoExchanges : List Input :=
  [.poll [.accept], .accept [5] 0, .lock, .finish 0,
    .poll [.read 5], .read [.data HttpConnection.oneGet, .again] 0 ⟨[], false⟩, .lock, .finish 0,
    .poll [.read 5], .read [.data HttpConnection.otherGet, .again] 0 ⟨[], false⟩,
    .answer 0 0 (.http ⟨200, ascii "hello", []⟩), .lock, .drain (.accepted 999) 0 ⟨[], false⟩, .finish 0,
    .answer 0 1 (.http ⟨404, ascii "none", []⟩), .poll [], .lock, .drain (.accepted 20) 0 ⟨[], false⟩]

theorem twoExchanges_runs : ((init HttpConnection.apartLibrary 3).run HttpConnection.apartLibrary
    twoExchanges).isSome = true := by decide +kernel

theorem twoExchanges_allowed : Along (step HttpConnection.apartLibrary) Allowed
    (init HttpConnection.apartLibrary 3) twoExchanges := by
  have hquiet : HandlerOutcome.Once ⟨[], false⟩ := ⟨Nat.zero_le 1, rfl⟩
  refine ⟨List.nodup_nil, fun t ht => ⟨⟨List.nodup_singleton 5, ?_⟩, fun _ _ => ⟨trivial, fun _ _ =>
    ⟨trivial, fun _ _ => ⟨List.nodup_singleton 5, fun _ _ => ⟨hquiet, fun _ _ => ⟨trivial, fun _ _ =>
    ⟨trivial, fun _ _ => ⟨List.nodup_singleton 5, fun _ _ => ⟨hquiet, fun _ _ => ⟨trivial, fun _ _ =>
    ⟨trivial, fun _ _ => ⟨hquiet, fun _ _ => ⟨trivial, fun _ _ => ⟨trivial, fun _ _ =>
    ⟨List.nodup_nil, fun _ _ => ⟨trivial, fun _ _ => ⟨hquiet, fun _ _ => trivial⟩⟩⟩⟩⟩⟩⟩⟩⟩⟩⟩⟩⟩⟩⟩⟩⟩⟩
  obtain rfl := Option.some.inj ht
  intro sock _ j hj
  exact absurd hj (not_owned_init _ 3 j)

theorem twoExchanges_in_order :
    ∃ s, (init HttpConnection.apartLibrary 3).run HttpConnection.apartLibrary twoExchanges = some s ∧
      (s.objects 0).added.map Prod.fst = [.http ⟨200, ascii "hello", []⟩, .http ⟨404, ascii "none", []⟩] ∧
      (s.conn 0).accepted.length = 145 ∧
      (∀ k r, ((s.objects 0).added.map Prod.fst)[k]? = some r →
        k < (s.objects 0).dispatched ∧ ∀ r', (k, r') ∈ (s.objects 0).answers ↔ r' = r) ∧
      (s.conn 0).accepted <+: ((s.objects 0).added.map Prod.snd).flatten := by
  refine ⟨_, (Option.some_get twoExchanges_runs).symm, by decide +kernel, by decide +kernel, ?_⟩
  exact (responses_in_request_order _ 3 twoExchanges_allowed (Option.some_get twoExchanges_runs).symm
    (by decide +kernel)).2

end Server

end HttpServer
end Hiaux
