import Hiaux.HttpServer.Server

/-!
# `HttpServer.Correctness.Ownership` — the invariant of the event loop

A connection object goes round in stages (`Stage`): all its requests are answered and all answers added
(`settled`); the last request dispatched is with its handler (`handling`); its answer is in a response queue
(`queued`); or the answer was dropped because the connection has left the table (`lost`), after which
nothing is dispatched on it any more. While an answer is queued the connection is waiting, except for the
handshake of an upgrade; that one is queued by the read event of the connection, and no second read of it
is in the batch.

Answers find their connection by descriptor number. That this is the right connection follows from
ownership: a descriptor stays open while the table, a queue or a handler holds its connection, so two
connections that are held have different numbers (`Strong.unique`).
-/

namespace Hiaux
namespace HttpServer

open Lib Network

variable {PS CP CR : Type}

/-! ## What sends and receives leave alone -/

namespace HttpConnection

/-- Everything the connection has been given to send: taken by the socket, buffered, and queued. -/
def output (c : HttpConnection PS CP CR) : Bytes := c.accepted ++ c.sendBuffer ++ c.resps.flatten

/-- What an operation on the socket keeps. -/
structure SameExchange (c c' : HttpConnection PS CP CR) : Prop where
  sock : c'.sock = c.sock
  waiting : c'.waitingLastHandling = c.waitingLastHandling
  output : c'.output = c.output

theorem SameExchange.trans {a b c : HttpConnection PS CP CR} (h : SameExchange a b)
    (h' : SameExchange b c) : SameExchange a c :=
  ⟨h'.sock.trans h.sock, h'.waiting.trans h.waiting, h'.output.trans h.output⟩

theorem sendBuffered_same (r : SendResult) (now : Nat) (c : HttpConnection PS CP CR) :
    SameExchange c (sendBuffered r now c).1 := by
  unfold sendBuffered
  cases r with
  | fatal => exact ⟨rfl, rfl, rfl⟩
  | again => exact ⟨rfl, rfl, rfl⟩
  | accepted n =>
      dsimp only
      split
      · exact ⟨rfl, rfl, rfl⟩
      · split
        · refine ⟨rfl, rfl, ?_⟩
          have hsub : substr c.sendBuffer (taken n c.sendBuffer.length)
              (c.sendBuffer.length - taken n c.sendBuffer.length) =
                c.sendBuffer.drop (taken n c.sendBuffer.length) := substr_of_le (by omega)
          simp only [output, hsub, List.append_assoc]
          rw [← List.append_assoc (c.sendBuffer.take _), List.take_append_drop]
        · refine ⟨rfl, rfl, ?_⟩
          have hle : c.sendBuffer.length ≤ taken n c.sendBuffer.length := by omega
          simp [output, List.take_of_length_le hle]

theorem performSend_same (r : SendResult) (now : Nat) (c : HttpConnection PS CP CR) :
    SameExchange c (c.performSend r now).1 := by
  unfold performSend
  split
  · rename_i hbuf
    split
    · exact ⟨rfl, rfl, rfl⟩
    · split
      · exact ⟨rfl, rfl, rfl⟩
      · rename_i resp rest hresps
        refine SameExchange.trans (b := { c with sendBuffer := resp, resps := rest }) ⟨rfl, rfl, ?_⟩
          (sendBuffered_same r now _)
        simp [output, hresps, List.eq_nil_of_length_eq_zero hbuf]
  · exact sendBuffered_same r now c

theorem performRecv_same (lib : Library PS CP CR) (rs : List RecvResult) (now : Nat)
    (c : HttpConnection PS CP CR) : SameExchange c (c.performRecv lib rs now).1 := by
  unfold performRecv
  split
  · exact ⟨rfl, rfl, rfl⟩
  · split
    · split
      · exact ⟨rfl, rfl, rfl⟩
      · exact ⟨rfl, rfl, rfl⟩
    · unfold receiveHttp
      dsimp only
      split <;> split <;> exact ⟨rfl, rfl, rfl⟩

end HttpConnection

/-! ## Objects -/

namespace Object

/-- The first `n` requests have been answered. -/
def Answered (o : Object PS CP CR) (n : Nat) : Prop := ∀ k < n, ∃ a ∈ o.answers, a.1 = k

/-- What holds of an object at all times: only dispatched requests are answered, each once, the responses
    added are the answers to its requests, in order, and the connection's output is their concatenation. -/
structure Sound (o : Object PS CP CR) : Prop where
  bounded : ∀ a ∈ o.answers, a.1 < o.dispatched
  once : (o.answers.map Prod.fst).Nodup
  paired : ∀ {j r}, (o.added.map Prod.fst)[j]? = some r → (j, r) ∈ o.answers
  output : o.conn.output = (o.added.map Prod.snd).flatten

theorem Answered.mono {o : Object PS CP CR} {m n : Nat} (h : o.Answered n) (hle : m ≤ n) :
    o.Answered m := fun k hk => h k (Nat.lt_of_lt_of_le hk hle)

/-- An answer to a dispatched request. -/
theorem Sound.addAnswer {o : Object PS CP CR} (h : o.Sound) {k : Nat} (hk : k < o.dispatched)
    (hopen : ∀ a ∈ o.answers, a.1 ≠ k) (r : Reply) :
    Sound { o with answers := o.answers ++ [(k, r)] } where
  bounded := by
    intro a ha
    rcases List.mem_append.mp ha with ha | ha
    · exact h.bounded a ha
    · rw [List.mem_singleton.mp ha]
      exact hk
  once := by
    rw [List.map_append]
    refine h.once.append (List.nodup_singleton k) ?_
    intro n hn hk'
    obtain ⟨a, ha, rfl⟩ := List.mem_map.mp hn
    exact hopen a ha (List.mem_singleton.mp hk')
  paired := fun hj => List.mem_append_left _ (h.paired hj)
  output := h.output

end Object

namespace Server

/-! ## The invariant -/

/-- The reads still to come in the batch. -/
def reads (s : Server PS CP CR) : List Nat :=
  match s.phase with
  | .events rest => rest.filterMap (fun n => match n with | .read sock => some sock | _ => none)
  | _ => []

/-- Whether a socket may be read before the response queues are drained the next time. -/
def MayRead (s : Server PS CP CR) (sock : Nat) : Prop :=
  match s.phase with
  | .idle => True
  | .events _ => sock ∈ s.reads
  | .draining => False
  | .deadlocked => False

/-- The answers for a connection in the response queues. -/
def entries (s : Server PS CP CR) (i : Nat) : List (Nat × Reply) :=
  (s.respQueue.filter (·.conn = i)).map (fun q => (q.request, Reply.http q.resp)) ++
    (s.customRespQueue.filter (·.conn = i)).map (fun q => (q.request, Reply.custom q.resp))

/-- The connection at `i` is in the table. -/
def InTable (s : Server PS CP CR) (i : Nat) : Prop := s.readingConnections[(s.conn i).sock]? = some i

/-- Where a connection is between the dispatch of a request and its answer. -/
inductive Stage (s : Server PS CP CR) (i : Nat) : Prop where
  | settled (count : (s.objects i).dispatched = (s.objects i).added.length)
      (answered : (s.objects i).Answered (s.objects i).dispatched) (none : s.entries i = [])
  | handling (count : (s.objects i).dispatched = (s.objects i).added.length + 1)
      (answered : (s.objects i).Answered (s.objects i).added.length)
      (open_ : ∀ a ∈ (s.objects i).answers, a.1 ≠ (s.objects i).added.length) (none : s.entries i = [])
      (waiting : (s.conn i).waitingLastHandling = true)
  | queued (r : Reply) (count : (s.objects i).dispatched = (s.objects i).added.length + 1)
      (answered : (s.objects i).Answered (s.objects i).dispatched)
      (one : s.entries i = [((s.objects i).added.length, r)])
      (mem : ((s.objects i).added.length, r) ∈ (s.objects i).answers)
      (waiting : (s.conn i).waitingLastHandling = true ∨ ¬ s.MayRead (s.conn i).sock)
  | lost (count : (s.objects i).dispatched = (s.objects i).added.length + 1)
      (answered : (s.objects i).Answered (s.objects i).dispatched) (none : s.entries i = [])
      (gone : ¬ s.InTable i)

/-- Who holds a connection: the table, a queue, or a handler that has still to answer. -/
def Owned (s : Server PS CP CR) (i : Nat) : Prop :=
  s.InTable i ∨ s.entries i ≠ [] ∨ ∃ k, s.Pending i k

/-- The invariant of the loop, while it runs; `held` are the connections that a local variable of the loop
    holds in the middle of a step. -/
structure Strong (held : Nat → Prop) (s : Server PS CP CR) : Prop where
  table : ∀ {sock i}, s.readingConnections[sock]? = some i → i < s.allocated ∧ (s.conn i).sock = sock
  fresh : ∀ {i}, s.allocated ≤ i → s.entries i = []
  unique : ∀ {i j}, (s.Owned i ∨ held i) → (s.Owned j ∨ held j) → (s.conn i).sock = (s.conn j).sock → i = j
  reads_nodup : s.reads.Nodup
  stage : ∀ {i}, i < s.allocated → s.Stage i
  sound : ∀ {i}, i < s.allocated → (s.objects i).Sound

/-- What holds in every state, also where the loop has stopped. -/
structure Safe (s : Server PS CP CR) : Prop where
  sound : ∀ {i}, i < s.allocated → (s.objects i).Sound
  one : ∀ {i k k'}, s.Pending i k → s.Pending i k' → k = k'

variable {held : Nat → Prop} {s s' : Server PS CP CR} {i j : Nat}

/-! ## Consequences -/

/-- A pending request is the one after those whose answers were added. -/
theorem Stage.pending_eq (h : s.Stage i) {k : Nat} (hk : s.Pending i k) :
    k = (s.objects i).added.length ∧ (s.objects i).dispatched = (s.objects i).added.length + 1 ∧
      s.entries i = [] ∧ (s.conn i).waitingLastHandling = true := by
  obtain ⟨-, hlt, hno⟩ := hk
  have hanswered : ∀ {n}, (s.objects i).Answered n → ¬ k < n := by
    intro n hn hkn
    obtain ⟨a, ha, hak⟩ := hn k hkn
    exact hno a ha hak
  cases h with
  | settled count answered none => exact absurd hlt (hanswered answered)
  | handling count answered open_ none waiting =>
      have := hanswered answered
      exact ⟨by omega, count, none, waiting⟩
  | queued r count answered one mem waiting => exact absurd hlt (hanswered answered)
  | lost count answered none gone => exact absurd hlt (hanswered answered)

/-- The requests whose answers were added have been answered. -/
theorem Stage.answered_added (h : s.Stage i) : (s.objects i).Answered (s.objects i).added.length := by
  cases h with
  | settled count answered none => exact answered.mono (Nat.le_of_eq count.symm)
  | handling count answered open_ none waiting => exact answered
  | queued r count answered one mem waiting => exact answered.mono (by omega)
  | lost count answered none gone => exact answered.mono (by omega)

theorem Strong.safe (h : Strong held s) : Safe s where
  sound := h.sound
  one := by
    intro i k k' hk hk'
    exact ((h.stage hk.1).pending_eq hk).1.trans ((h.stage hk.1).pending_eq hk').1.symm

theorem Strong.owned_of_table {sock : Nat} (h : Strong held s)
    (ht : s.readingConnections[sock]? = some i) : s.Owned i := by
  refine Or.inl ?_
  unfold InTable
  rw [(h.table ht).2, ht]

/-- **An answer finds its own connection, or none.** -/
theorem Strong.lookup (h : Strong held s) (hi : s.Owned i ∨ held i)
    (ht : s.readingConnections[(s.conn i).sock]? = some j) : j = i :=
  h.unique (Or.inl (h.owned_of_table ht)) hi (h.table ht).2

theorem Strong.weaken {held' : Nat → Prop} (h : Strong held s)
    (hheld : ∀ i, held' i → s.Owned i ∨ held i) : Strong held' s := by
  refine { h with unique := ?_ }
  intro i j hi hj hs
  exact h.unique (hi.elim Or.inl (hheld i)) (hj.elim Or.inl (hheld j)) hs

/-! ## Frame -/

/-- A change that does not touch an object keeps its stage; connections only leave the table. -/
theorem Stage.frame (h : s.Stage j) (hobj : s'.objects j = s.objects j) (hent : s'.entries j = s.entries j)
    (hread : s.entries j ≠ [] → ∀ sock, s'.MayRead sock → s.MayRead sock)
    (htab : s'.InTable j → s.InTable j) : s'.Stage j := by
  have hconn : s'.conn j = s.conn j := congrArg Object.conn hobj
  cases h with
  | settled count answered none =>
      exact .settled (by rw [hobj]; exact count) (by rw [hobj]; exact answered) (hent.trans none)
  | handling count answered open_ none waiting =>
      exact .handling (by rw [hobj]; exact count) (by rw [hobj]; exact answered)
        (by rw [hobj]; exact open_) (hent.trans none) (by rw [hconn]; exact waiting)
  | queued r count answered one mem waiting =>
      refine .queued r (by rw [hobj]; exact count) (by rw [hobj]; exact answered)
        (by rw [hobj]; exact hent.trans one) (by rw [hobj]; exact mem) ?_
      rw [hconn]
      exact waiting.imp id (fun hn hm => hn (hread (by rw [one]; simp) _ hm))
  | lost count answered none gone =>
      exact .lost (by rw [hobj]; exact count) (by rw [hobj]; exact answered) (hent.trans none)
        (fun hm => gone (htab hm))

/-- A change of one object, its entries and the table: what has to be shown for the invariant. -/
theorem Strong.change (h : Strong held s) (halloc : s'.allocated = s.allocated)
    (hi : i < s.allocated) (hobj : ∀ j, j ≠ i → s'.objects j = s.objects j)
    (hent : ∀ j, j ≠ i → s'.entries j = s.entries j) (hsock : (s'.conn i).sock = (s.conn i).sock)
    (hphase : s'.phase = s.phase)
    (htab : ∀ {sock j : Nat}, s'.readingConnections[sock]? = some j → s.readingConnections[sock]? = some j)
    (howned : s'.Owned i → s.Owned i ∨ held i) (hstage : s'.Stage i) (hsound : (s'.objects i).Sound) :
    Strong held s' := by
  have hreads : s'.reads = s.reads := by rw [reads, hphase, reads]
  have hread : ∀ sock, s'.MayRead sock → s.MayRead sock := by
    intro sock hr
    unfold MayRead at hr ⊢
    rw [hphase, hreads] at hr
    exact hr
  have hsocks : ∀ j, (s'.conn j).sock = (s.conn j).sock := by
    intro j
    by_cases hj : j = i
    · rw [hj, hsock]
    · unfold conn
      rw [hobj j hj]
  have hin : ∀ j, s'.InTable j → s.InTable j := by
    intro j hj
    unfold InTable at hj ⊢
    rw [← hsocks]
    exact htab hj
  -- whoever is held afterwards was held before, so descriptors stay apart
  have hown : ∀ j, s'.Owned j ∨ held j → s.Owned j ∨ held j := by
    rintro j (hj | hj)
    · by_cases hji : j = i
      · rw [hji] at hj ⊢
        exact howned hj
      · refine Or.inl ?_
        rcases hj with hj | hj | ⟨k, hk⟩
        · exact Or.inl (hin j hj)
        · exact Or.inr (Or.inl (by rw [← hent j hji]; exact hj))
        · refine Or.inr (Or.inr ⟨k, ?_⟩)
          unfold Pending at hk ⊢
          rw [← halloc, ← hobj j hji]
          exact hk
    · exact Or.inr hj
  refine ⟨?_, ?_, ?_, hreads ▸ h.reads_nodup, ?_, ?_⟩
  · intro sock j hj
    rw [halloc, hsocks]
    exact h.table (htab hj)
  · intro j hj
    rw [halloc] at hj
    rw [hent j (by omega)]
    exact h.fresh hj
  · intro a b ha hb hs
    rw [hsocks, hsocks] at hs
    exact h.unique (hown a ha) (hown b hb) hs
  · intro j hj
    by_cases hji : j = i
    · rw [hji]
      exact hstage
    · exact (h.stage (halloc ▸ hj)).frame (hobj j hji) (hent j hji) (fun _ => hread) (hin j)
  · intro j hj
    by_cases hji : j = i
    · rw [hji]
      exact hsound
    · rw [hobj j hji]
      exact h.sound (halloc ▸ hj)

/-- A change of no object and no queue; connections may leave the table. -/
theorem Strong.shrink (h : Strong held s) (hobj : s'.objects = s.objects)
    (halloc : s'.allocated = s.allocated) (hresp : s'.respQueue = s.respQueue)
    (hcustom : s'.customRespQueue = s.customRespQueue) (hreads : s'.reads.Nodup)
    (hread : ∀ j, s.entries j ≠ [] → ∀ sock, s'.MayRead sock → s.MayRead sock)
    (htab : ∀ {sock j : Nat}, s'.readingConnections[sock]? = some j → s.readingConnections[sock]? = some j) :
    Strong held s' := by
  have hconn : ∀ j, s'.conn j = s.conn j := fun j => by rw [conn, hobj, conn]
  have hent : ∀ j, s'.entries j = s.entries j := fun j => by rw [entries, hresp, hcustom, entries]
  have hin : ∀ j, s'.InTable j → s.InTable j := by
    intro j hj
    unfold InTable at hj ⊢
    rw [← hconn]
    exact htab hj
  have hown : ∀ j, s'.Owned j ∨ held j → s.Owned j ∨ held j := by
    intro j hj
    refine hj.imp ?_ id
    rintro (hj | hj | ⟨k, hk⟩)
    · exact Or.inl (hin j hj)
    · exact Or.inr (Or.inl (by rw [← hent]; exact hj))
    · refine Or.inr (Or.inr ⟨k, ?_⟩)
      unfold Pending at hk ⊢
      rw [← halloc, ← hobj]
      exact hk
  refine ⟨?_, ?_, ?_, hreads, ?_, ?_⟩
  · intro sock j hj
    rw [halloc, hconn]
    exact h.table (htab hj)
  · intro j hj
    rw [hent]
    exact h.fresh (halloc ▸ hj)
  · intro a b ha hb hs
    rw [hconn, hconn] at hs
    exact h.unique (hown a ha) (hown b hb) hs
  · intro j hj
    exact (h.stage (halloc ▸ hj)).frame (by rw [hobj]) (hent j) (hread j) (hin j)
  · intro j hj
    rw [hobj]
    exact h.sound (halloc ▸ hj)

end Server

end HttpServer
end Hiaux
