import Hiaux.HttpServer.Correctness.Effects
import Hiaux.HttpServer.Correctness.Order
import Hiaux.HttpServer.Program

/-!
# `HttpServer.Correctness.Reuse` — descriptors that are used again

An answer is routed back by descriptor number. It reaches its own connection, or none, because a number is
not given out again while anybody has a pointer to the connection that has it: connections that are open have
different descriptors (`Distinct`), whatever the handlers do and in whatever order connections come and go.
-/

namespace Hiaux
namespace HttpServer

open Lib Network Server

variable {PS CP CR : Type}

namespace Program

variable {lib : Library PS CP CR} {p p' : Program PS CP CR} {i j : Nat}

/-! ## Open connections -/

/-- Whether anybody has a pointer to a connection. -/
def Open (p : Program PS CP CR) (i : Nat) : Prop :=
  p.server.InTable i ∨ (∃ q ∈ p.server.respQueue, q.conn = i) ∨
    (∃ q ∈ p.server.customRespQueue, q.conn = i) ∨ 0 < p.pointers i

/-- **Open connections have different descriptors**, and none has the listening one. The table has each
    connection under its own. -/
structure Distinct (p : Program PS CP CR) : Prop where
  table : ∀ {sock i : Nat}, p.server.readingConnections[sock]? = some i →
    i < p.server.allocated ∧ (p.server.conn i).sock = sock
  accepted : ∀ {i : Nat}, p.Open i → i < p.server.allocated
  unique : ∀ {i j : Nat}, p.Open i → p.Open j → (p.server.conn i).sock = (p.server.conn j).sock → i = j
  listen : ∀ {i : Nat}, p.Open i → (p.server.conn i).sock ≠ p.listenSock

theorem Distinct.open_of_table (h : Distinct p) {sock : Nat}
    (ht : p.server.readingConnections[sock]? = some i) : p.Open i := by
  refine Or.inl ?_
  unfold InTable
  rw [(h.table ht).2, ht]

/-- The connection found under the descriptor of an open one is that one. -/
theorem Distinct.found (h : Distinct p) {about : Option Nat} (habout : ∀ i, about = some i → p.Open i)
    (hfound : p.server.found about = some j) : about = some j := by
  obtain ⟨i, hi, ht⟩ := Option.bind_eq_some_iff.mp hfound
  rw [hi, h.unique (habout i hi) (h.open_of_table ht) (h.table ht).2.symm]

/-- A change after which no other connection is open than before. -/
theorem Distinct.shrink (h : Distinct p) (hlisten : p'.listenSock = p.listenSock)
    (halloc : p'.server.allocated = p.server.allocated)
    (hsock : ∀ j, (p'.server.conn j).sock = (p.server.conn j).sock)
    (htab : ∀ {sock j : Nat}, p'.server.readingConnections[sock]? = some j →
      p.server.readingConnections[sock]? = some j)
    (hopen : ∀ j, p'.Open j → p.Open j) : Distinct p' where
  table := by
    intro sock j ht
    rw [halloc, hsock]
    exact h.table (htab ht)
  accepted := fun hj => halloc ▸ h.accepted (hopen _ hj)
  unique := by
    intro a b ha hb hs
    rw [hsock, hsock] at hs
    exact h.unique (hopen a ha) (hopen b hb) hs
  listen := by
    intro a ha
    rw [hsock, hlisten]
    exact h.listen (hopen a ha)

/-- **An operation about an open connection** keeps the descriptors apart. -/
theorem Distinct.effect (h : Distinct p) {about : Option Nat}
    (heffect : Effect about p.server p'.server) (habout : ∀ i, about = some i → p.Open i)
    (hlisten : p'.listenSock = p.listenSock)
    (hptr : ∀ j, 0 < p'.pointers j → 0 < p.pointers j ∨ about = some j) : Distinct p' := by
  refine h.shrink hlisten heffect.allocated heffect.sock heffect.table ?_
  -- a new entry of a queue is for the connection that the operation is about
  have hqueue : ∀ {ρ : Type} {q q' : List (Queued ρ)} {j : Nat},
      Routed (p.server.found about) q q' → (∃ x ∈ q', x.conn = j) → (∃ x ∈ q, x.conn = j) ∨ p.Open j := by
    rintro ρ q _ j ⟨news, rfl, hnews⟩ ⟨x, hx, rfl⟩
    rcases List.mem_append.mp hx with hx | hx
    · exact Or.inl ⟨x, hx, rfl⟩
    · exact Or.inr (habout _ (h.found habout (hnews x hx)))
  rintro j (hj | hj | hj | hj)
  · refine Or.inl ?_
    unfold InTable at hj ⊢
    rw [← heffect.sock]
    exact heffect.table hj
  · exact (hqueue heffect.resp hj).elim (fun hj => Or.inr (Or.inl hj)) id
  · exact (hqueue heffect.custom hj).elim (fun hj => Or.inr (Or.inr (Or.inl hj))) id
  · exact (hptr j hj).elim (fun hj => Or.inr (Or.inr (Or.inr hj))) (habout j)

/-- Only the subject of a step may be dispatched. -/
theorem pointers_advance {about : Option Nat} {t : Server PS CP CR} (heffect : Effect about p.server t)
    (hj : 0 < (p.advance t).pointers j) : 0 < p.pointers j ∨ about = some j := by
  by_cases habout : about = some j
  · exact Or.inr habout
  · have hsame : 0 < p.pointers j + ((t.objects j).dispatched - (p.server.objects j).dispatched) := hj
    rw [heffect.others j habout, Nat.sub_self] at hsame
    exact Or.inl hsame

/-! ## Accepting -/

/-- A free descriptor is not that of an open connection. -/
theorem Distinct.fresh (h : Distinct p) {sock : Nat} (hfree : p.Free sock) (hi : p.Open i) :
    (p.server.conn i).sock ≠ sock := by
  obtain ⟨-, htable, hresp, hcustom, hptr⟩ := hfree
  rcases hi with hi | ⟨q, hq, rfl⟩ | ⟨q, hq, rfl⟩ | hi
  · exact htable (_, i) (Std.ExtTreeMap.mem_toList_iff_getElem?_eq_some.mpr hi)
  · exact hresp q hq
  · exact hcustom q hq
  · exact hptr i (h.accepted (Or.inr (Or.inr (Or.inr hi)))) hi

/-- A fresh descriptor is not in the table. -/
theorem Distinct.lookup_fresh (h : Distinct p) {sock : Nat}
    (hfresh : ∀ i, p.Open i → (p.server.conn i).sock ≠ sock) :
    p.server.readingConnections[sock]? = none := by
  cases ht : p.server.readingConnections[sock]? with
  | none => rfl
  | some i => exact absurd (h.table ht).2 (hfresh i (h.open_of_table ht))

/-- Who is open after a connection was accepted. -/
theorem Distinct.open_acceptOne (h : Distinct p) (lib : Library PS CP CR) (now : Nat) {sock : Nat}
    (hfresh : ∀ i, p.Open i → (p.server.conn i).sock ≠ sock)
    (hi : Open { p with server := p.server.acceptOne lib now sock } i) :
    i = p.server.allocated ∨ p.Open i := by
  by_cases hia : i = p.server.allocated
  · exact Or.inl hia
  · refine Or.inr (hi.imp ?_ id)
    intro hin
    unfold InTable conn at hin
    rw [lookup_acceptOne (h.lookup_fresh hfresh), objects_acceptOne_of_ne lib now sock hia] at hin
    split at hin
    · exact absurd (Option.some.inj hin).symm hia
    · exact hin

/-- **One accepted connection.** -/
theorem Distinct.acceptOne (h : Distinct p) (lib : Library PS CP CR) (now : Nat) {sock : Nat}
    (hfresh : ∀ i, p.Open i → (p.server.conn i).sock ≠ sock) (hlisten : sock ≠ p.listenSock) :
    Distinct { p with server := p.server.acceptOne lib now sock } := by
  have hnew : ((p.server.acceptOne lib now sock).conn p.server.allocated).sock = sock := by
    rw [conn, objects_acceptOne_self lib now sock p.server]
    rfl
  have hold : ∀ {j}, j ≠ p.server.allocated →
      (p.server.acceptOne lib now sock).conn j = p.server.conn j :=
    fun hj => congrArg Object.conn (objects_acceptOne_of_ne lib now sock hj)
  have hopen : ∀ {i}, Open { p with server := p.server.acceptOne lib now sock } i →
      i = p.server.allocated ∨ p.Open i := fun hi => h.open_acceptOne lib now hfresh hi
  refine ⟨?_, ?_, ?_, ?_⟩
  · intro sock' j ht
    rw [lookup_acceptOne (h.lookup_fresh hfresh)] at ht
    split at ht
    · rename_i hs
      obtain rfl := Option.some.inj ht
      exact ⟨Nat.lt_succ_self _, hnew.trans hs.symm⟩
    · obtain ⟨hlt, hs⟩ := h.table ht
      exact ⟨Nat.lt_succ_of_lt hlt, (congrArg _ (hold (Nat.ne_of_lt hlt))).trans hs⟩
  · intro i hi
    rcases hopen hi with rfl | hi
    · exact Nat.lt_succ_self _
    · exact Nat.lt_succ_of_lt (h.accepted hi)
  -- an open connection has another descriptor than the new one
  · have hclash : ∀ {j}, p.Open j → j ≠ p.server.allocated →
        ((p.server.acceptOne lib now sock).conn j).sock ≠
          ((p.server.acceptOne lib now sock).conn p.server.allocated).sock := by
      intro j hj hja
      rw [hnew, hold hja]
      exact hfresh j hj
    intro a b ha hb hs
    by_cases haa : a = p.server.allocated
    · by_cases hba : b = p.server.allocated
      · exact haa.trans hba.symm
      · exact absurd (haa ▸ hs).symm (hclash ((hopen hb).resolve_left hba) hba)
    · by_cases hba : b = p.server.allocated
      · exact absurd (hba ▸ hs) (hclash ((hopen ha).resolve_left haa) haa)
      · refine h.unique ((hopen ha).resolve_left haa) ((hopen hb).resolve_left hba) ?_
        rw [← hold haa, ← hold hba]
        exact hs
  · intro i hi
    show ((p.server.acceptOne lib now sock).conn i).sock ≠ p.listenSock
    by_cases hia : i = p.server.allocated
    · rw [hia, hnew]
      exact hlisten
    · rw [hold hia]
      exact h.listen ((hopen hi).resolve_left hia)

/-- The descriptors still to come differ from the one just accepted. -/
theorem Distinct.fresh_acceptOne (h : Distinct p) (lib : Library PS CP CR) (now : Nat) {sock : Nat}
    {socks : List Nat} (hnot : sock ∉ socks)
    (hfresh : ∀ sock' ∈ sock :: socks, ∀ i, p.Open i → (p.server.conn i).sock ≠ sock') :
    ∀ sock' ∈ socks, ∀ i, Open { p with server := p.server.acceptOne lib now sock } i →
      ((p.server.acceptOne lib now sock).conn i).sock ≠ sock' := by
  intro sock' hmem i hi
  by_cases hia : i = p.server.allocated
  · rw [hia, conn, objects_acceptOne_self]
    intro (he : sock = sock')
    exact hnot (he ▸ hmem)
  · rw [conn, objects_acceptOne_of_ne lib now sock hia]
    have hopen := h.open_acceptOne lib now (hfresh sock List.mem_cons_self) hi
    exact hfresh sock' (List.mem_cons_of_mem sock hmem) i (hopen.resolve_left hia)

/-- **An accept event.** -/
theorem Distinct.performAccept (h : Distinct p) (lib : Library PS CP CR) (now : Nat) {socks : List Nat}
    (hnodup : socks.Nodup) (hfresh : ∀ sock ∈ socks, ∀ i, p.Open i → (p.server.conn i).sock ≠ sock)
    (hlisten : ∀ sock ∈ socks, sock ≠ p.listenSock) :
    Distinct { p with server := p.server.performAccept lib socks now } := by
  induction socks generalizing p with
  | nil => exact h
  | cons sock socks ih =>
      obtain ⟨hnot, hnodup⟩ := List.nodup_cons.mp hnodup
      have hone := h.acceptOne lib now (hfresh sock List.mem_cons_self) (hlisten sock List.mem_cons_self)
      exact ih hone hnodup (h.fresh_acceptOne lib now hnot hfresh)
        (fun sock' hmem => hlisten sock' (List.mem_cons_of_mem sock hmem))

theorem dispatched_performAccept (lib : Library PS CP CR) (socks : List Nat) (now : Nat)
    (s : Server PS CP CR) (i : Nat) :
    ((s.performAccept lib socks now).objects i).dispatched ≤ (s.objects i).dispatched := by
  unfold performAccept
  induction socks generalizing s with
  | nil => exact Nat.le_refl _
  | cons sock socks ih =>
      refine (ih (s.acceptOne lib now sock)).trans ?_
      by_cases hi : i = s.allocated
      · rw [hi, objects_acceptOne_self]
        exact Nat.zero_le _
      · rw [objects_acceptOne_of_ne lib now sock hi]

/-! ## Steps -/

/-- The connection at the front of the queues is open. -/
theorem open_of_front {q : Reply} (h : p.server.front = some (i, q)) : p.Open i := by
  rcases front_cases h with ⟨x, rest, hx, rfl, -⟩ | ⟨x, rest, -, hx, rfl, -⟩
  · exact Or.inr (Or.inl ⟨x, hx ▸ List.mem_cons_self, rfl⟩)
  · exact Or.inr (Or.inr (Or.inl ⟨x, hx ▸ List.mem_cons_self, rfl⟩))

/-- The subject of an input is open. -/
theorem Distinct.open_of_subject (h : Distinct p) {input : Server.Input}
    (hi : p.server.subject input = some i) : p.Open i := by
  unfold subject at hi
  split at hi
  · split at hi
    · exact h.open_of_table hi
    · exact absurd hi (by simp)
  · split at hi
    · exact h.open_of_table hi
    · exact absurd hi (by simp)
  · obtain ⟨⟨i, q⟩, hfront, rfl⟩ := Option.map_eq_some_iff.mp hi
    exact open_of_front hfront
  · exact absurd hi (by simp)

/-- Adding the reply at the front to its connection. -/
theorem Distinct.addReply (h : Distinct p) (lib : Library PS CP CR) (now : Nat) (i : Nat) (q : Reply) :
    Distinct { p with server := p.server.addReply lib now i q } := by
  obtain ⟨c, bytes, heq, hsock⟩ := addReply_frame lib now i q p.server
  have hsocks : ∀ j, ((p.server.addReply lib now i q).conn j).sock = (p.server.conn j).sock := by
    intro j
    rw [heq, conn]
    by_cases hj : j = i
    · rw [hj, objects_modify_self]
      exact hsock
    · rw [objects_modify_of_ne _ hj]
      rfl
  have htab : (p.server.addReply lib now i q).readingConnections = p.server.readingConnections := by
    rw [heq]
    rfl
  refine h.shrink rfl (by rw [heq]; rfl) hsocks (fun ht => htab ▸ ht) ?_
  rintro j (hj | hj | hj | hj)
  · refine Or.inl ?_
    unfold InTable at hj ⊢
    rw [← hsocks]
    exact htab ▸ hj
  · rw [heq] at hj
    exact Or.inr (Or.inl hj)
  · rw [heq] at hj
    exact Or.inr (Or.inr (Or.inl hj))
  · exact Or.inr (Or.inr (Or.inr hj))

/-- Leaving entries out of the queues. -/
theorem Distinct.pop {u t : Server PS CP CR} (h : Distinct { p with server := u })
    (hobj : t.objects = u.objects) (halloc : t.allocated = u.allocated)
    (htab : t.readingConnections = u.readingConnections) (hresp : ∀ x ∈ t.respQueue, x ∈ u.respQueue)
    (hcustom : ∀ x ∈ t.customRespQueue, x ∈ u.customRespQueue) : Distinct { p with server := t } := by
  have hconn : ∀ j, t.conn j = u.conn j := fun j => by rw [conn, hobj, conn]
  refine h.shrink rfl halloc (fun j => congrArg _ (hconn j)) (fun ht => htab ▸ ht) ?_
  rintro j (hj | ⟨x, hx, hj⟩ | ⟨x, hx, hj⟩ | hj)
  · refine Or.inl ?_
    show u.readingConnections[(u.conn j).sock]? = some j
    rw [← hconn, ← htab]
    exact hj
  · exact Or.inr (Or.inl ⟨x, hresp x hx, hj⟩)
  · exact Or.inr (Or.inr (Or.inl ⟨x, hcustom x hx, hj⟩))
  · exact Or.inr (Or.inr (Or.inr hj))

theorem popReply_subset (q : Reply) (u : Server PS CP CR) :
    (∀ x ∈ (popReply q u).respQueue, x ∈ u.respQueue) ∧
      ∀ x ∈ (popReply q u).customRespQueue, x ∈ u.customRespQueue := by
  cases q with
  | http resp => exact ⟨fun _ => List.mem_of_mem_tail, fun _ => id⟩
  | custom bytes => exact ⟨fun _ => id, fun _ => List.mem_of_mem_tail⟩

/-- **A round of draining.** -/
theorem Distinct.drainOne (h : Distinct p) {q : Reply} (hfront : p.server.front = some (i, q))
    (r : SendResult) (now : Nat) (o : HandlerOutcome) :
    Distinct (p.advance (p.server.drainOne lib i q (popReply q) r now o)) := by
  obtain ⟨u, heffect, hobj, -, hcases⟩ := drainOne_cases lib i q r now o p.server
  generalize p.server.drainOne lib i q (popReply q) r now o = t at hobj hcases
  obtain ⟨c, bytes, heq, -⟩ := addReply_frame lib now i q p.server
  have hadd := h.addReply lib now i q
  have hopen : Open { p with server := p.server.addReply lib now i q } i := by
    refine open_of_front (q := q) ?_
    show (p.server.addReply lib now i q).front = some (i, q)
    rw [heq]
    exact hfront
  have hu : Distinct { p.advance t with server := u } := by
    refine hadd.effect heffect (fun j hj => Option.some.inj hj ▸ hopen) rfl ?_
    intro j hj
    by_cases hji : j = i
    · exact Or.inr (congrArg some hji.symm)
    -- no other connection has been dispatched
    · have hsame : u.objects j = p.server.objects j := by
        rw [heffect.others j (fun h => hji (Option.some.inj h).symm), heq, objects_modify_of_ne _ hji]
      have hptr : 0 < p.pointers j + ((t.objects j).dispatched - (p.server.objects j).dispatched) := hj
      rw [hobj, hsame, Nat.sub_self] at hptr
      exact Or.inl hptr
  rcases hcases with rfl | ⟨phase, rfl⟩
  · obtain ⟨hresp, hcustom⟩ := popReply_subset q u
    exact hu.pop hobj (by cases q <;> rfl) (by cases q <;> rfl) hresp hcustom
  · exact hu.pop rfl rfl rfl (fun _ => id) (fun _ => id)

/-- **A step of the loop.** -/
theorem Distinct.loop {input : Server.Input} {t : Server PS CP CR} (h : Distinct p)
    (hadmissible : p.Admissible input) (ht : p.server.step lib input = some t) : Distinct (p.advance t) := by
  have hphase : ∀ phase, Distinct { p with server := { p.server with phase := phase } } :=
    fun _ => h.shrink rfl rfl (fun _ => rfl) id (fun _ => id)
  rcases Server.step_cases ht with ⟨phase, heffect⟩ | ⟨socks, now, phase, rfl, rfl⟩ |
    ⟨r, now, o, i, q, rfl, hfront, -, rfl⟩ | ⟨i, k, r, rfl, -⟩
  · exact (hphase phase).effect heffect (fun i hi => h.open_of_subject hi) rfl
      (fun j hj => pointers_advance heffect hj)
  · have haccept := (hphase phase).performAccept lib now hadmissible.1
      (fun sock hmem i hi => h.fresh (hadmissible.2 sock hmem) hi)
      (fun sock hmem => (hadmissible.2 sock hmem).1)
    refine haccept.shrink rfl rfl (fun _ => rfl) id (fun j hj => hj.imp id (Or.imp id (Or.imp id ?_)))
    -- accepting dispatches nothing
    intro hptr
    have hle := dispatched_performAccept lib socks now { p.server with phase := phase } j
    have hptr' : 0 < p.pointers j + ((({ p.server with phase := phase }.performAccept lib socks
      now).objects j).dispatched - (p.server.objects j).dispatched) := hptr
    rw [Nat.sub_eq_zero_of_le hle] at hptr'
    exact hptr'
  · exact h.drainOne hfront r now o
  · exact hadmissible.elim

/-- **Every step keeps the descriptors of open connections apart.** -/
theorem Distinct.step {input : Input} (h : Distinct p) (hstep : p.step lib input = some p') :
    Distinct p' := by
  rcases step_cases hstep with ⟨loop, t, -, hadmissible, ht, rfl⟩ | ⟨i, k, r, -, hptr, -, -, rfl⟩ |
    ⟨i, k, resp, -, hptr, -, rfl⟩ | ⟨i, n, -, hptr, rfl⟩
  · exact h.loop hadmissible ht
  · exact h.effect (handled_reply i k r p.server).effect
      (fun j hj => Option.some.inj hj ▸ Or.inr (Or.inr (Or.inr hptr))) rfl (fun _ => Or.inl)
  · refine h.shrink rfl rfl (fun _ => rfl) id ?_
    rintro j (hj | ⟨x, hx, rfl⟩ | hj | hj)
    · exact Or.inl hj
    · rcases List.mem_append.mp hx with hx | hx
      · exact Or.inr (Or.inl ⟨x, hx, rfl⟩)
      · rw [List.mem_singleton.mp hx]
        exact Or.inr (Or.inr (Or.inr hptr))
    · exact Or.inr (Or.inr (Or.inl hj))
    · exact Or.inr (Or.inr (Or.inr hj))
  · refine h.shrink rfl rfl (fun _ => rfl) id (fun j hj => hj.imp id (Or.imp id (Or.imp id ?_)))
    intro hj'
    by_cases hji : j = i
    · exact hji ▸ hptr
    · exact (Function.update_of_ne hji n p.pointers) ▸ hj'

theorem Distinct.init (lib : Library PS CP CR) (listenSock : Nat) : Distinct (init lib listenSock) := by
  have hopen : ∀ i, ¬ (Program.init lib listenSock).Open i := by
    rintro i (hi | ⟨q, hq, -⟩ | ⟨q, hq, -⟩ | hi)
    · exact absurd hi (by simp [InTable, Program.init, Server.init])
    · exact absurd hq List.not_mem_nil
    · exact absurd hq List.not_mem_nil
    · exact absurd hi (Nat.lt_irrefl 0)
  exact ⟨fun ht => absurd ht (by simp [Program.init, Server.init]), fun hi => absurd hi (hopen _),
    fun hi => absurd hi (hopen _), fun hi => absurd hi (hopen _)⟩

/-! ## Where answers go -/

/-- The connection on which answers are given in a step: the one whose handler the loop calls, or the one
    that a handler has a pointer to. -/
def answering (p : Program PS CP CR) : Input → Option Nat
  | .loop input => p.server.subject input
  | .reply i _ _ => some i
  | .sendResponse i _ _ => some i
  | .copy _ => none
  | .drop _ => none

/-- A step may take entries from the front of the response queues; what it adds is for one connection. -/
structure Delivered (target : Option Nat) (s t : Server PS CP CR) : Prop where
  resp : ∃ n, Routed target (s.respQueue.drop n) t.respQueue
  custom : ∃ n, Routed target (s.customRespQueue.drop n) t.customRespQueue

/-- An operation adds entries for its subject. -/
theorem Distinct.delivered {about : Option Nat} {s t : Server PS CP CR} (h : Distinct p)
    (habout : ∀ i, about = some i → p.Open i) (heffect : Effect about s t)
    (hfound : s.found about = p.server.found about) (hresp : s.respQueue = p.server.respQueue)
    (hcustom : s.customRespQueue = p.server.customRespQueue) :
    Routed about p.server.respQueue t.respQueue ∧ Routed about p.server.customRespQueue t.customRespQueue := by
  have htarget : ∀ j, s.found about = some j → about = some j :=
    fun j hj => h.found habout (hfound ▸ hj)
  rw [← hresp, ← hcustom]
  exact ⟨Routed.trans (Routed.refl about _) heffect.resp htarget,
    Routed.trans (Routed.refl about _) heffect.custom htarget⟩

theorem delivered_of_routed {about : Option Nat} {s t : Server PS CP CR}
    (h : Routed about s.respQueue t.respQueue ∧ Routed about s.customRespQueue t.customRespQueue) :
    Delivered about s t := ⟨⟨0, h.1⟩, ⟨0, h.2⟩⟩

theorem Routed.tail {ρ : Type} {target : Option Nat} {q q' : List (Queued ρ)} (h : Routed target q q')
    (hne : q ≠ []) : Routed target (q.drop 1) q'.tail := by
  obtain ⟨news, rfl, hnews⟩ := h
  refine ⟨news, ?_, hnews⟩
  rw [List.tail_append_of_ne_nil hne, List.drop_one]

/-- A round of draining takes the front and adds entries for the connection of the front. -/
theorem Distinct.delivered_drainOne (h : Distinct p) {q : Reply} (hfront : p.server.front = some (i, q))
    (r : SendResult) (now : Nat) (o : HandlerOutcome) :
    Delivered (some i) p.server (p.server.drainOne lib i q (popReply q) r now o) := by
  obtain ⟨u, heffect, -, -, hcases⟩ := drainOne_cases lib i q r now o p.server
  generalize p.server.drainOne lib i q (popReply q) r now o = t at hcases
  obtain ⟨c, bytes, heq, hsock⟩ := addReply_frame lib now i q p.server
  have hopen : ∀ j, some i = some j → p.Open j := fun j hj => Option.some.inj hj ▸ open_of_front hfront
  have hfound : (p.server.addReply lib now i q).found (some i) = p.server.found (some i) := by
    show (p.server.addReply lib now i q).readingConnections[((p.server.addReply lib now i q).conn i).sock]? =
      p.server.readingConnections[(p.server.conn i).sock]?
    rw [heq, conn, objects_modify_self]
    exact congrArg _ hsock
  obtain ⟨hresp, hcustom⟩ := h.delivered hopen heffect hfound (by rw [heq]; rfl) (by rw [heq]; rfl)
  rcases hcases with rfl | ⟨phase, rfl⟩
  · rcases front_cases hfront with ⟨x, rest, hx, -, rfl⟩ | ⟨x, rest, -, hx, -, rfl⟩
    · exact ⟨⟨1, Routed.tail hresp (by rw [hx]; simp)⟩, ⟨0, hcustom⟩⟩
    · exact ⟨⟨0, hresp⟩, ⟨1, Routed.tail hcustom (by rw [hx]; simp)⟩⟩
  · exact delivered_of_routed ⟨hresp, hcustom⟩

/-- **What a step adds to the queues is for the connection the answers were given on.** -/
theorem Distinct.delivered_step {input : Input} (h : Distinct p) (hstep : p.step lib input = some p') :
    Delivered (p.answering input) p.server p'.server := by
  rcases step_cases hstep with ⟨loop, t, rfl, hadmissible, ht, rfl⟩ | ⟨i, k, r, rfl, hptr, -, -, rfl⟩ |
    ⟨i, k, resp, rfl, hptr, -, rfl⟩ | ⟨i, n, -, -, rfl⟩
  · rcases Server.step_cases ht with ⟨phase, heffect⟩ | ⟨socks, now, phase, rfl, rfl⟩ |
      ⟨r, now, o, i, q, rfl, hfront, -, rfl⟩ | ⟨i, k, r, rfl, -⟩
    · exact delivered_of_routed (h.delivered (fun i hi => h.open_of_subject hi) heffect rfl rfl rfl)
    · obtain ⟨hresp, hcustom⟩ := queues_performAccept lib socks now { p.server with phase := phase }
      refine delivered_of_routed ⟨?_, ?_⟩
      · show Routed _ p.server.respQueue (Server.performAccept lib socks now _).respQueue
        rw [hresp]
        exact Routed.refl _ _
      · show Routed _ p.server.customRespQueue (Server.performAccept lib socks now _).customRespQueue
        rw [hcustom]
        exact Routed.refl _ _
    · have hsubject : p.answering (.loop (.drain r now o)) = some i := by
        show p.server.front.map Prod.fst = some i
        rw [hfront]
        rfl
      rw [hsubject]
      exact h.delivered_drainOne hfront r now o
    · exact hadmissible.elim
  · exact delivered_of_routed (h.delivered (fun j hj => Option.some.inj hj ▸ Or.inr (Or.inr (Or.inr hptr)))
      (handled_reply i k r p.server).effect rfl rfl rfl)
  · refine delivered_of_routed ⟨⟨[⟨i, k, resp⟩], rfl, fun x hx => ?_⟩, Routed.refl _ _⟩
    rw [List.mem_singleton.mp hx]
    rfl
  · exact delivered_of_routed ⟨Routed.refl _ _, Routed.refl _ _⟩

/-- Two servers with the same response queues. -/
def SameQueues (s t : Server PS CP CR) : Prop :=
  t.respQueue = s.respQueue ∧ t.customRespQueue = s.customRespQueue

/-- **A reply through a pointer** is dropped, or queued for the connection itself. -/
theorem Distinct.reply (h : Distinct p) (hi : p.Open i) (k : Nat) (r : Reply) :
    SameQueues p.server (p.server.reply i k r) ∨ SameQueues (p.server.push i k r) (p.server.reply i k r) := by
  rcases reply_cases i k r p.server with ⟨-, -, heq⟩ | ⟨-, ⟨-, heq⟩ | ⟨j, ht, heq⟩⟩
  · rw [heq]
    exact Or.inl ⟨rfl, rfl⟩
  · rw [heq]
    exact Or.inl ⟨rfl, rfl⟩
  · have hj : j = i := h.unique (h.open_of_table ht) hi (h.table ht).2
    rw [heq, hj]
    exact Or.inr (by cases r <;> exact ⟨rfl, rfl⟩)

/-- **An answer never reaches another client.** In every state of every run, whatever the order of accepts,
    disconnects, removals and late answers: whatever the next step adds to the response queues is for the
    connection its answers are given on; and an answer given through a pointer that a handler still has is
    dropped, or queued for that connection itself. -/
theorem answers_reach_own_connection (lib : Library PS CP CR) (listenSock : Nat) {inputs : List Input}
    (hrun : (init lib listenSock).run lib inputs = some p) :
    (∀ input p', p.step lib input = some p' → Delivered (p.answering input) p.server p'.server) ∧
    ∀ i k r, 0 < p.pointers i → SameQueues p.server (p.server.reply i k r) ∨
      SameQueues (p.server.push i k r) (p.server.reply i k r) := by
  have hdistinct : Distinct p := run_invariant Distinct Distinct.step (Distinct.init lib listenSock) hrun
  exact ⟨fun _ _ hstep => hdistinct.delivered_step hstep,
    fun i k r hptr => hdistinct.reply (Or.inr (Or.inr (Or.inr hptr))) k r⟩

/-- A connection is accepted and asks for something; the peer disconnects, and the handler gives up its
    pointer. The descriptor is given to a second connection, whose handler has still to answer. -/
def descriptorReused : List Input :=
  [.loop (.poll [.accept]), .loop (.accept [5] 0), .loop .lock, .loop (.finish 0),
    .loop (.poll [.read 5, .error 5]), .loop (.read [.data HttpConnection.oneGet, .again] 0 ⟨[], false⟩),
    .loop .error, .loop .lock, .loop (.finish 0), .drop 0,
    .loop (.poll [.accept]), .loop (.accept [5] 0), .loop .lock, .loop (.finish 0),
    .loop (.poll [.read 5]), .loop (.read [.data HttpConnection.oneGet, .again] 0 ⟨[], false⟩)]

theorem descriptorReused_runs : ((init HttpConnection.oneGetLibrary 3).run HttpConnection.oneGetLibrary
    descriptorReused).isSome = true := by decide +kernel

theorem descriptorReused_own : ∃ p : Program Unit Unit Unit,
    (init HttpConnection.oneGetLibrary 3).run HttpConnection.oneGetLibrary descriptorReused = some p ∧
      (p.server.conn 0).sock = (p.server.conn 1).sock ∧
      ∀ r, SameQueues p.server (p.server.reply 1 0 r) ∨
        SameQueues (p.server.push 1 0 r) (p.server.reply 1 0 r) := by
  have hrun := (Option.some_get descriptorReused_runs).symm
  refine ⟨_, hrun, by decide +kernel, fun r => ?_⟩
  exact (answers_reach_own_connection HttpConnection.oneGetLibrary 3 hrun).2 1 0 r (by decide +kernel)

end Program

end HttpServer
end Hiaux
