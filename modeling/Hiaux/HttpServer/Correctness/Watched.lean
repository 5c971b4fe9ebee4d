import Hiaux.HttpServer.Correctness.Close
import Hiaux.HttpServer.Correctness.Removal
import Hiaux.HttpServer.Correctness.Reuse

/-!
# `HttpServer.Correctness.Watched` — pending output is watched

The watcher's masks and the connection table have the same sockets, and a connection with output that is
still to be sent is watched for writing (`Watched`). Between the steps of the loop this holds of every
connection; within a round of draining all but the one whose reply is being added (`except`).

The clean-up removes the dead connections that its iterator reaches. After the first it advances an iterator
to an erased entry, which may take it anywhere; so which entries it reaches is left to the environment
(`cleanUpReached`).
-/

namespace Hiaux
namespace HttpServer

open Lib Network Server

variable {PS CP CR : Type}

/-! ## Sending -/

namespace HttpConnection

theorem sendBuffered_resps (r : SendResult) (now : Nat) (c : HttpConnection PS CP CR) :
    (sendBuffered r now c).1.resps = c.resps := by
  unfold sendBuffered
  cases r with
  | fatal => rfl
  | again => rfl
  | accepted n =>
      dsimp only
      split
      · rfl
      · split <;> rfl

/-- A send that is complete leaves the buffer empty. -/
theorem sendBuffered_sent {r : SendResult} {now : Nat} {c : HttpConnection PS CP CR}
    (h : (sendBuffered r now c).2 = true) : (sendBuffered r now c).1.sendBuffer = [] := by
  unfold sendBuffered at h ⊢
  cases r with
  | fatal => exact absurd h (by simp)
  | again => exact absurd h (by simp)
  | accepted n =>
      dsimp only at h ⊢
      split at h
      · exact absurd h (by simp)
      · rename_i hzero
        rw [if_neg hzero]
        split at h
        · exact absurd h (by simp)
        · rename_i hpart
          rw [if_neg hpart]

/-- Sending leaves nothing unsent that was not unsent before. -/
theorem performSend_unsent {r : SendResult} {now : Nat} {c : HttpConnection PS CP CR}
    (h : (c.performSend r now).1.Unsent) : c.Unsent := by
  by_contra hsent
  have hnil : c.sendBuffer = [] ∧ c.resps = [] := by
    unfold Unsent at hsent
    simpa using hsent
  unfold performSend at h
  rw [if_pos (by rw [hnil.1]; rfl)] at h
  split at h
  · exact hsent h
  · rw [hnil.2] at h
    exact hsent h

/-- A reply that is added to a connection with nothing unsent, and sent completely, leaves nothing unsent. -/
theorem performSend_sent {r : SendResult} {now : Nat} {c : HttpConnection PS CP CR} {x : Bytes}
    (hbuffer : c.sendBuffer = []) (hresps : c.resps = [x]) (h : (c.performSend r now).2 = true) :
    ¬ (c.performSend r now).1.Unsent := by
  unfold performSend at h ⊢
  rw [if_pos (by rw [hbuffer]; rfl)] at h ⊢
  split at h
  · exact absurd h (by simp)
  · rename_i hclose
    rw [if_neg hclose]
    rw [hresps] at h ⊢
    rintro (hne | hne)
    · exact hne (sendBuffered_sent h)
    · exact hne (sendBuffered_resps r now _)

end HttpConnection

namespace Server

variable {listenSock : Nat} {except : Nat → Prop} {s t : Server PS CP CR} {i : Nat}

/-! ## The invariant -/

/-- The watcher and the table have the same sockets, each connection is in the table under its own, and what
    has output to send is watched for writing. -/
structure Watched (listenSock : Nat) (except : Nat → Prop) (s : Server PS CP CR) : Prop where
  agree : ∀ {sock : Nat}, sock ≠ listenSock →
    (s.socketsMasks[sock]?).isSome = (s.readingConnections[sock]?).isSome
  own : ∀ {sock i : Nat}, s.readingConnections[sock]? = some i →
    (s.conn i).sock = sock ∧ sock ≠ listenSock
  output : ∀ {sock i : Nat}, s.readingConnections[sock]? = some i → ¬ except i → (s.conn i).Unsent →
    ∃ m, s.socketsMasks[sock]? = some m ∧ m.write = true

/-- A change of connections that leaves nothing unsent which was not. -/
theorem Watched.sends (h : Watched listenSock except s) (htab : t.readingConnections = s.readingConnections)
    (hmasks : t.socketsMasks = s.socketsMasks) (hsock : ∀ j, (t.conn j).sock = (s.conn j).sock)
    (hunsent : ∀ j, ¬ except j → (t.conn j).Unsent → (s.conn j).Unsent) : Watched listenSock except t where
  agree := by
    intro sock hsock
    rw [htab, hmasks]
    exact h.agree hsock
  own := by
    intro sock j ht
    rw [hsock]
    exact h.own (htab ▸ ht)
  output := by
    intro sock j ht hj hu
    rw [hmasks]
    exact h.output (htab ▸ ht) hj (hunsent j hj hu)

/-- A change of the connection at `i` to one with nothing unsent that was not, or of an exception. -/
theorem Watched.modify (h : Watched listenSock except s) {f : Object PS CP CR → Object PS CP CR}
    (hsock : (f (s.objects i)).conn.sock = (s.conn i).sock)
    (hunsent : ¬ except i → (f (s.objects i)).conn.Unsent → (s.conn i).Unsent) :
    Watched listenSock except (s.modify i f) := by
  have hself : (s.modify i f).conn i = (f (s.objects i)).conn := by rw [conn, objects_modify_self]
  have hother : ∀ j, j ≠ i → (s.modify i f).conn j = s.conn j :=
    fun j hj => congrArg Object.conn (objects_modify_of_ne f hj)
  refine h.sends rfl rfl ?_ ?_
  · intro j
    by_cases hj : j = i
    · rw [hj, hself, hsock]
    · rw [hother j hj]
  · intro j hex hu
    by_cases hj : j = i
    · rw [hj] at hex hu ⊢
      rw [hself] at hu
      exact hunsent hex hu
    · rwa [hother j hj] at hu

/-- What a handler does. -/
theorem Watched.handled (h : Watched listenSock except s) (hh : Handled i s t) :
    Watched listenSock except t := by
  refine h.sends hh.table hh.masks hh.effect.sock ?_
  intro j _ hu
  by_cases hj : j = i
  · rw [hj] at hu ⊢
    unfold HttpConnection.Unsent at hu ⊢
    rwa [hh.output.sendBuffer, hh.output.resps] at hu
  · rwa [conn, hh.effect.others j (fun hji => hj (Option.some.inj hji).symm)] at hu

theorem Watched.weaken (h : Watched listenSock except s) {except' : Nat → Prop}
    (hweaken : ∀ i, except i → except' i) : Watched listenSock except' s :=
  ⟨h.agree, h.own, fun ht hj hu => h.output ht (fun he => hj (hweaken _ he)) hu⟩

/-! ## The watcher and the table -/

/-- Taking a socket out of both; an exception may have been its connection. -/
theorem Watched.remove (h : Watched listenSock except s) (sock : Nat)
    (hexcept : ∀ i, except i → (s.conn i).sock = sock) :
    Watched listenSock (fun _ => False) (s.remove sock) := by
  have htab : ∀ {sock' j : Nat}, (s.remove sock).readingConnections[sock']? = some j →
      sock' ≠ sock ∧ s.readingConnections[sock']? = some j := by
    intro sock' j ht
    exact getElem?_erase_iff.mp ht
  refine ⟨?_, fun ht => h.own (htab ht).2, ?_⟩
  · intro sock' hsock
    show ((s.socketsMasks.erase sock)[sock']?).isSome = ((s.readingConnections.erase sock)[sock']?).isSome
    rw [Std.ExtTreeMap.getElem?_erase, Std.ExtTreeMap.getElem?_erase]
    split
    · rfl
    · exact h.agree hsock
  · intro sock' j ht _ hu
    obtain ⟨hne, ht⟩ := htab ht
    have hj : ¬ except j := fun hj => hne ((h.own ht).1.symm.trans (hexcept j hj))
    obtain ⟨m, hm, hwrite⟩ := h.output ht hj hu
    refine ⟨m, ?_, hwrite⟩
    show (s.socketsMasks.erase sock)[sock']? = some m
    rw [Std.ExtTreeMap.getElem?_erase, if_neg (fun he => hne (compare_eq_iff_eq.mp he).symm)]
    exact hm

/-- A socket that is not in the table. -/
theorem Watched.delSocket (h : Watched listenSock except s) {sock : Nat}
    (hnone : s.readingConnections[sock]? = none) : Watched listenSock except (s.delSocket sock) := by
  refine ⟨?_, h.own, ?_⟩
  · intro sock' hsock
    show ((s.socketsMasks.erase sock)[sock']?).isSome = (s.readingConnections[sock']?).isSome
    rw [Std.ExtTreeMap.getElem?_erase]
    split
    · rename_i he
      rw [← compare_eq_iff_eq.mp he, hnone]
      rfl
    · exact h.agree hsock
  · intro sock' j ht hj hu
    obtain ⟨m, hm, hwrite⟩ := h.output ht hj hu
    refine ⟨m, ?_, hwrite⟩
    show (s.socketsMasks.erase sock)[sock']? = some m
    rw [Std.ExtTreeMap.getElem?_erase, if_neg ?_]
    · exact hm
    · intro he
      rw [compare_eq_iff_eq.mp he] at hnone
      exact absurd (hnone.symm.trans ht) (by simp)

theorem Watched.killConnection (h : Watched listenSock (fun _ => False) s) (sock : Nat) :
    Watched listenSock (fun _ => False) (s.killConnection sock) := by
  unfold Server.killConnection
  split
  · rename_i hnone
    exact h.delSocket hnone
  · exact h.remove sock (fun _ he => he.elim)

/-- The masks after `enableEvents`, which changes nothing where there is no mask. -/
theorem masks_enableEvents (s : Server PS CP CR) (sock sock' : Nat) :
    (s.enableEvents sock).socketsMasks[sock']? =
      if sock' = sock then (s.socketsMasks[sock]?).map (fun m => { m with read := true, write := true })
      else s.socketsMasks[sock']? := by
  unfold Server.enableEvents
  split
  · rename_i hnone
    split
    · rename_i hs
      rw [hs, hnone]
      rfl
    · rfl
  · rename_i m hm
    show (s.socketsMasks.insert sock { m with read := true, write := true })[sock']? = _
    rw [Std.ExtTreeMap.getElem?_insert, hm]
    by_cases hs : sock' = sock
    · rw [if_pos (compare_eq_iff_eq.mpr hs.symm), if_pos hs]
      rfl
    · rw [if_neg (fun he => hs (compare_eq_iff_eq.mp he).symm), if_neg hs]

/-- Watching for writing; an exception may be the connection of the socket. -/
theorem Watched.enableEvents (h : Watched listenSock except s) {sock : Nat}
    (hexcept : ∀ i, except i → (s.conn i).sock = sock) :
    Watched listenSock (fun _ => False) (s.enableEvents sock) := by
  refine ⟨?_, ?_, ?_⟩
  · intro sock' hsock
    rw [masks_enableEvents, readingConnections_enableEvents, ← h.agree hsock]
    split
    · rename_i hs
      rw [hs, Option.isSome_map]
    · rfl
  · intro sock' j ht
    rw [readingConnections_enableEvents] at ht
    rw [conn_enableEvents]
    exact h.own ht
  · intro sock' j ht _ hu
    rw [readingConnections_enableEvents] at ht
    rw [conn_enableEvents] at hu
    rw [masks_enableEvents]
    by_cases hs : sock' = sock
    · rw [if_pos hs]
      have hsome : (s.socketsMasks[sock]?).isSome = true := by
        rw [← hs, h.agree (h.own ht).2, ht]
        rfl
      obtain ⟨m, hm⟩ := Option.isSome_iff_exists.mp hsome
      exact ⟨_, by rw [hm]; rfl, rfl⟩
    · rw [if_neg hs]
      exact h.output ht (fun he => hs ((h.own ht).1.symm.trans (hexcept j he))) hu

/-- The connection excepted has nothing to send, or is watched after all. -/
theorem Watched.settle (h : Watched listenSock (· = i) s)
    (hi : s.readingConnections[(s.conn i).sock]? = some i → (s.conn i).Unsent →
      ∃ m, s.socketsMasks[(s.conn i).sock]? = some m ∧ m.write = true) :
    Watched listenSock (fun _ => False) s := by
  refine ⟨h.agree, h.own, ?_⟩
  intro sock j ht _ hu
  by_cases hj : j = i
  · obtain ⟨hsock, -⟩ := h.own ht
    rw [hj] at hsock hu ht
    rw [← hsock] at ht ⊢
    exact hi ht hu
  · exact h.output ht hj hu

/-! ## Operations of the loop -/

theorem Watched.performRecv (h : Watched listenSock (fun _ => False) s) (lib : Library PS CP CR) (sock : Nat)
    (rs : List RecvResult) (now : Nat) (o : HandlerOutcome) :
    Watched listenSock (fun _ => False) (s.performRecv lib sock rs now o) := by
  unfold Server.performRecv
  split
  · rename_i hnone
    exact h.delSocket hnone
  · rename_i i ht
    have hsame := HttpConnection.performRecv_sameOutput lib rs now (s.conn i)
    generalize (s.conn i).performRecv lib rs now = received at hsame
    obtain ⟨c, threw⟩ := received
    dsimp only at hsame ⊢
    have hset : Watched listenSock (fun _ => False) (s.setConn i c) := h.handled (Handled.setConn hsame)
    have hhandle := hset.handled (handled_handleWaitingRequests lib i o (s.setConn i c))
    split
    · exact hset.killConnection sock
    · split
      · split
        · exact hhandle.killConnection sock
        · exact hhandle
      · exact hset.remove sock (fun _ he => he.elim)

theorem Watched.performSend (h : Watched listenSock (fun _ => False) s) (sock : Nat) (r : SendResult)
    (now : Nat) : Watched listenSock (fun _ => False) (s.performSend sock r now) := by
  unfold Server.performSend
  split
  · exact h
  · rename_i i ht
    have hset : Watched listenSock (fun _ => False) (s.setConn i ((s.conn i).performSend r now).1) :=
      h.modify (HttpConnection.performSend_same r now (s.conn i)).sock
        (fun _ hu => HttpConnection.performSend_unsent hu)
    dsimp only
    split
    · exact hset.remove sock (fun _ he => he.elim)
    · exact hset

/-- What adding a reply does to its connection. -/
theorem conn_addReply (lib : Library PS CP CR) (now i : Nat) (q : Reply) (s : Server PS CP CR) :
    ∃ x, (s.addReply lib now i q).conn i = { s.conn i with resps := (s.conn i).resps ++ [x] } := by
  unfold conn addReply
  cases q with
  | http resp => exact ⟨_, congrArg Object.conn (objects_modify_self _)⟩
  | custom bytes => exact ⟨_, congrArg Object.conn (objects_modify_self _)⟩

/-- Where nothing was pending, a send that is complete takes the whole reply. -/
theorem addReply_sent (lib : Library PS CP CR) (q : Reply) (r : SendResult) (now : Nat)
    (hquiet : ¬ (s.conn i).Unsent)
    (hsent : (HttpConnection.performSend r now
      { (s.addReply lib now i q).conn i with waitingLastHandling := false }).2 = true) :
    ¬ (HttpConnection.performSend r now
      { (s.addReply lib now i q).conn i with waitingLastHandling := false }).1.Unsent := by
  obtain ⟨x, hx⟩ := conn_addReply lib now i q s
  have hnil : (s.conn i).sendBuffer = [] ∧ (s.conn i).resps = [] := by
    unfold HttpConnection.Unsent at hquiet
    simpa using hquiet
  refine HttpConnection.performSend_sent (x := x) ?_ ?_ hsent
  · rw [hx]
    exact hnil.1
  · rw [hx]
    show (s.conn i).resps ++ [x] = [x]
    rw [hnil.2]
    rfl

/-- **Adding a reply and sending it**: what is not sent is watched for, and a dead connection leaves both
    tables. -/
theorem Watched.handleResponse (h : Watched listenSock (fun _ => False) s) (lib : Library PS CP CR) (i : Nat)
    (q : Reply) (r : SendResult) (now : Nat) (o : HandlerOutcome)
    (hdefined : ((s.addReply lib now i q).handleResponse lib i r now o).1.undefined = false) :
    Watched listenSock (fun _ => False) ((s.addReply lib now i q).handleResponse lib i r now o).1 := by
  obtain ⟨x, hx⟩ := conn_addReply lib now i q s
  obtain ⟨c, bytes, heq, hsock⟩ := addReply_frame lib now i q s
  have hadd : Watched listenSock (· = i) (s.addReply lib now i q) := by
    rw [heq]
    exact (h.weaken (fun _ he => he.elim)).modify hsock (fun hne => absurd rfl hne)
  have hmasks : (s.addReply lib now i q).socketsMasks = s.socketsMasks := by
    rw [heq]
    rfl
  have htab : (s.addReply lib now i q).readingConnections = s.readingConnections := by
    rw [heq]
    rfl
  unfold Server.handleResponse at hdefined ⊢
  have hsame := HttpConnection.performSend_same r now
    { (s.addReply lib now i q).conn i with waitingLastHandling := false }
  have hsent := addReply_sent (s := s) (i := i) lib q r now
  generalize HttpConnection.performSend r now
    { (s.addReply lib now i q).conn i with waitingLastHandling := false } = result at hsame hsent hdefined ⊢
  obtain ⟨c', sent⟩ := result
  dsimp only at hsame hsent hdefined ⊢
  have hsock' : c'.sock = (s.conn i).sock := by
    rw [hsame.sock, hx]
  have hset : Watched listenSock (· = i) ((s.addReply lib now i q).setConn i c') :=
    hadd.modify hsame.sock (fun hne => absurd rfl hne)
  have hown : ∀ j, j = i → (((s.addReply lib now i q).setConn i c').conn j).sock = c'.sock := by
    rintro j rfl
    rw [conn_setConn_self]
  split at hdefined
  · rename_i hdead
    rw [if_pos hdead]
    split at hdefined
    · exact absurd hdefined (by simp)
    · exact hset.remove c'.sock hown
  · rename_i hdead
    rw [if_neg hdead]
    refine Watched.handled ?_ (handled_handleWaitingRequests lib i o _)
    cases sent with
    | false => exact hset.enableEvents hown
    | true =>
        refine hset.settle ?_
        rw [conn_setConn_self, hsock']
        intro ht hu
        -- had nothing been pending before, everything would have been sent
        by_contra hnot
        have hquiet : ¬ (s.conn i).Unsent := by
          intro hbefore
          refine hnot ?_
          obtain ⟨m, hm⟩ := h.output (htab ▸ ht) id hbefore
          exact ⟨m, hmasks ▸ hm⟩
        exact hsent hquiet rfl hu

/-- A round of draining. -/
theorem Watched.drainOne (h : Watched listenSock (fun _ => False) s) (lib : Library PS CP CR) (i : Nat)
    (q : Reply) (r : SendResult) (now : Nat) (o : HandlerOutcome)
    (hdefined : (s.drainOne lib i q (popReply q) r now o).undefined = false) :
    Watched listenSock (fun _ => False) (s.drainOne lib i q (popReply q) r now o) := by
  rw [undefined_drainOne] at hdefined
  have hresponse := h.handleResponse lib i q r now o hdefined
  have hkeep : ∀ t u : Server PS CP CR, Watched listenSock (fun _ => False) u → t.objects = u.objects →
      t.readingConnections = u.readingConnections → t.socketsMasks = u.socketsMasks →
      Watched listenSock (fun _ => False) t := by
    intro t u hu hobj htab hmasks
    have hconn : ∀ j, t.conn j = u.conn j := fun j => by rw [conn, hobj, conn]
    exact hu.sends htab hmasks (fun j => by rw [hconn]) (fun j _ => by rw [hconn]; exact id)
  unfold Server.drainOne
  dsimp only
  split
  · exact hresponse
  · split
    · exact hkeep _ _ hresponse rfl rfl rfl
    · refine hkeep _ _ hresponse ?_ ?_ ?_ <;> cases q <;> rfl

/-- **One accepted connection**, which has nothing to send. -/
theorem Watched.acceptOne (h : Watched listenSock (fun _ => False) s) (lib : Library PS CP CR) (now : Nat)
    {sock : Nat} (hnone : s.readingConnections[sock]? = none) (hlisten : sock ≠ listenSock)
    (hold : ∀ {sock i : Nat}, s.readingConnections[sock]? = some i → i < s.allocated) :
    Watched listenSock (fun _ => False) (s.acceptOne lib now sock) := by
  have hconn : ∀ {sock' j : Nat}, s.readingConnections[sock']? = some j →
      (s.acceptOne lib now sock).conn j = s.conn j :=
    fun ht => congrArg Object.conn (objects_acceptOne_of_ne lib now sock (Nat.ne_of_lt (hold ht)))
  have hnew : (s.acceptOne lib now sock).conn s.allocated = .new lib sock now := by
    rw [conn, objects_acceptOne_self]
  have hmask : ∀ sock' : Nat, (s.acceptOne lib now sock).socketsMasks[sock']? =
      if sock' = sock then some ⟨true, false, false⟩ else s.socketsMasks[sock']? := by
    intro sock'
    show (s.socketsMasks.insert sock ⟨true, false, false⟩)[sock']? = _
    rw [Std.ExtTreeMap.getElem?_insert]
    by_cases hs : sock' = sock
    · rw [if_pos (compare_eq_iff_eq.mpr hs.symm), if_pos hs]
    · rw [if_neg (fun he => hs (compare_eq_iff_eq.mp he).symm), if_neg hs]
  refine ⟨?_, ?_, ?_⟩
  · intro sock' hsock
    rw [hmask, lookup_acceptOne hnone]
    split
    · rfl
    · exact h.agree hsock
  · intro sock' j ht
    rw [lookup_acceptOne hnone] at ht
    split at ht
    · rename_i hs
      obtain rfl := Option.some.inj ht
      rw [hnew]
      exact ⟨hs.symm, hs ▸ hlisten⟩
    · rw [hconn ht]
      exact h.own ht
  · intro sock' j ht _ hu
    rw [lookup_acceptOne hnone] at ht
    rw [hmask]
    split at ht
    · obtain rfl := Option.some.inj ht
      rw [hnew] at hu
      exact absurd hu (by simp [HttpConnection.Unsent, HttpConnection.new])
    · rename_i hs
      rw [if_neg hs]
      rw [hconn ht] at hu
      exact h.output ht id hu

theorem Watched.cleanUpOne (h : Watched listenSock (fun _ => False) s) (now sock : Nat) :
    Watched listenSock (fun _ => False) (s.cleanUpOne now sock) := by
  unfold Server.cleanUpOne
  split
  · exact h
  · rename_i i ht
    split
    · exact h
    · rw [(h.own ht).1]
      exact h.remove sock (fun _ he => he.elim)

/-- **The clean-up**, whatever its iterator reaches. -/
theorem Watched.cleanUpReached (h : Watched listenSock (fun _ => False) s) (now : Nat) (reached : List Nat) :
    Watched listenSock (fun _ => False) (s.cleanUpReached now reached) := by
  unfold Server.cleanUpReached
  split
  · exact h
  · induction reached generalizing s with
    | nil => exact h
    | cons sock reached ih => exact ih (h.cleanUpOne now sock)

/-- A change of the phase. -/
theorem Watched.phase (h : Watched listenSock except s) (phase : Phase) :
    Watched listenSock except { s with phase := phase } :=
  h.sends rfl rfl (fun _ => rfl) (fun _ _ => id)

/-- **A step of the loop** that is defined and is no accept. -/
theorem Watched.step {lib : Library PS CP CR} {input : Input} (h : Watched listenSock (fun _ => False) s)
    (hstep : s.step lib input = some t) (hdefined : t.undefined = false)
    (haccept : ∀ socks now, input ≠ .accept socks now) : Watched listenSock (fun _ => False) t := by
  have hdrain := hstep
  unfold Server.step at hstep
  split at hstep
  · exact absurd hstep (by simp)
  · split at hstep
    · exact Option.some.inj hstep ▸ h.phase _
    · exact absurd rfl (haccept _ _)
    · exact Option.some.inj hstep ▸ (h.phase _).performRecv lib _ _ _ _
    · exact Option.some.inj hstep ▸ (h.phase _).performSend _ _ _
    · exact Option.some.inj hstep ▸ (h.phase _).killConnection _
    · exact Option.some.inj hstep ▸ h.phase _
    · obtain ⟨-, -, i, q, -, rfl⟩ := step_drain hdrain
      exact h.drainOne lib i q _ _ _ hdefined
    · obtain ⟨-, rfl⟩ := step_finish.mp hdrain
      rw [cleanUp_eq]
      exact h.sends rfl rfl (fun _ => rfl) (fun _ _ => id)
    · split at hstep
      · exact Option.some.inj hstep ▸ h.handled (handled_reply _ _ _ s)
      · exact absurd hstep (by simp)
    · exact absurd hstep (by simp)

end Server

namespace Program

variable {lib : Library PS CP CR} {p p' : Program PS CP CR}

/-! ## Programs -/

/-- **An accept event.** -/
theorem watched_performAccept (hd : Distinct p) (h : Watched p.listenSock (fun _ => False) p.server)
    (lib : Library PS CP CR) (now : Nat) {socks : List Nat} (hnodup : socks.Nodup)
    (hfresh : ∀ sock ∈ socks, ∀ i, p.Open i → (p.server.conn i).sock ≠ sock)
    (hlisten : ∀ sock ∈ socks, sock ≠ p.listenSock) :
    Watched p.listenSock (fun _ => False) (p.server.performAccept lib socks now) := by
  induction socks generalizing p with
  | nil => exact h
  | cons sock socks ih =>
      obtain ⟨hnot, hnodup⟩ := List.nodup_cons.mp hnodup
      have hone := hd.acceptOne lib now (hfresh sock List.mem_cons_self) (hlisten sock List.mem_cons_self)
      have hwatched := h.acceptOne lib now (hd.lookup_fresh (hfresh sock List.mem_cons_self))
        (hlisten sock List.mem_cons_self) (fun ht => (hd.table ht).1)
      refine ih hone hwatched hnodup ?_ (fun sock' hmem => hlisten sock' (List.mem_cons_of_mem sock hmem))
      exact hd.fresh_acceptOne lib now hnot hfresh

/-- Descriptors stay apart, and pending output is watched. -/
def WellKept (p : Program PS CP CR) : Prop := Distinct p ∧ Watched p.listenSock (fun _ => False) p.server

/-- **A defined step.** -/
theorem WellKept.step {input : Input} (h : WellKept p) (hstep : p.step lib input = some p')
    (hdefined : p'.server.undefined = false) : WellKept p' := by
  refine ⟨h.1.step hstep, ?_⟩
  rcases step_cases hstep with ⟨loop, t, -, hadmissible, ht, rfl⟩ | ⟨i, k, r, -, -, -, -, rfl⟩ |
    ⟨i, k, resp, -, -, -, rfl⟩ | ⟨i, n, -, -, rfl⟩
  · by_cases haccept : ∃ socks now, loop = .accept socks now
    · obtain ⟨socks, now, rfl⟩ := haccept
      obtain ⟨phase, rfl⟩ := step_accept ht
      have hphase : Distinct { p with server := { p.server with phase := phase } } :=
        h.1.shrink rfl rfl (fun _ => rfl) id (fun _ => id)
      exact watched_performAccept hphase (h.2.phase phase) lib now hadmissible.1
        (fun sock hmem i hi => h.1.fresh (hadmissible.2 sock hmem) hi)
        (fun sock hmem => (hadmissible.2 sock hmem).1)
    · exact h.2.step ht hdefined (fun socks now heq => haccept ⟨socks, now, heq⟩)
  · exact h.2.handled (handled_reply i k r p.server)
  · exact h.2.sends rfl rfl (fun _ => rfl) (fun _ _ => id)
  · exact h.2

/-- The end of a round. -/
theorem WellKept.idle {u : Server PS CP CR} (h : WellKept p) (heffect : Effect none p.server u)
    (hwatched : Watched p.listenSock (fun _ => False) u) :
    WellKept { p with server := { u with phase := .idle } } := by
  have hdistinct : Distinct { p with server := u } :=
    h.1.effect heffect (fun i hi => absurd hi (by simp)) rfl (fun _ => Or.inl)
  exact ⟨hdistinct.shrink rfl rfl (fun _ => rfl) id (fun _ => id), hwatched.phase .idle⟩

theorem effect_cleanUpReached (about : Option Nat) (now : Nat) (reached : List Nat) (s : Server PS CP CR) :
    Effect about s (s.cleanUpReached now reached) := by
  have hone : ∀ (s : Server PS CP CR) sock, Effect about s (s.cleanUpOne now sock) := by
    intro s sock
    unfold Server.cleanUpOne
    split
    · exact .refl about s
    · split
      · exact .refl about s
      · exact (Effect.remove about sock s).trans (.quiet about rfl rfl rfl rfl (.inr rfl) id)
  unfold Server.cleanUpReached
  split
  · exact .refl about s
  · induction reached generalizing s with
    | nil => exact .refl about s
    | cons sock reached ih => exact (hone s sock).trans (ih _)

/-- **Every step with a clean-up that goes on.** -/
theorem WellKept.stepReaching {event : Event} (h : WellKept p)
    (hstep : p.stepReaching lib event = some p') : WellKept p' := by
  cases event with
  | input input =>
      obtain ⟨hstep, hdefined⟩ := Option.filter_eq_some_iff.mp hstep
      exact h.step hstep (by simpa using hdefined)
  | cleanUp reached now =>
      simp only [Program.stepReaching] at hstep
      split at hstep
      · rw [← Option.some.inj hstep]
        exact h.idle (effect_cleanUpReached none now reached p.server) (h.2.cleanUpReached now reached)
      · exact absurd hstep (by simp)

theorem WellKept.init (lib : Library PS CP CR) (listenSock : Nat) : WellKept (init lib listenSock) := by
  refine ⟨Distinct.init lib listenSock, ⟨?_, ?_, ?_⟩⟩
  · intro sock (hsock : sock ≠ listenSock)
    have hne : ¬ compare listenSock sock = .eq := fun he => hsock (compare_eq_iff_eq.mp he).symm
    simp [Program.init, Server.init, hne]
  · exact fun ht => absurd ht (by simp [Program.init, Server.init])
  · exact fun ht => absurd ht (by simp [Program.init, Server.init])

/-- A program does not come back from a step that is not defined. -/
theorem defined_of_step {input : Input} (hstep : p.step lib input = some p')
    (hdefined : p'.server.undefined = false) : p.server.undefined = false := by
  rcases step_cases hstep with ⟨loop, t, -, -, ht, -⟩ | ⟨i, k, r, -, -, hu, -, -⟩ |
    ⟨i, k, resp, -, -, hu, -⟩ | ⟨i, n, -, -, rfl⟩
  · unfold Server.step at ht
    split at ht
    · exact absurd ht (by simp)
    · rename_i hu
      simpa using hu
  · exact hu
  · exact hu
  · exact hdefined

theorem defined_of_run {inputs : List Input} (hrun : p.run lib inputs = some p')
    (hdefined : p'.server.undefined = false) : p.server.undefined = false := by
  induction inputs generalizing p with
  | nil => exact Option.some.inj hrun ▸ hdefined
  | cons input inputs ih =>
      obtain ⟨u, hu, hrun⟩ := Option.bind_eq_some_iff.mp hrun
      exact defined_of_step hu (ih hrun)

/-- **A run that stays defined is one of those.** -/
theorem runReaching_of_run {inputs : List Input} (hrun : p.run lib inputs = some p')
    (hdefined : p'.server.undefined = false) : p.runReaching lib (inputs.map .input) = some p' := by
  induction inputs generalizing p with
  | nil => exact hrun
  | cons input inputs ih =>
      obtain ⟨u, hu, hrun⟩ := Option.bind_eq_some_iff.mp hrun
      have hu' : p.stepReaching lib (.input input) = some u :=
        Option.filter_eq_some_iff.mpr ⟨hu, by simp [defined_of_run hrun hdefined]⟩
      exact Option.bind_eq_some_iff.mpr ⟨u, hu', ih hrun⟩

/-! ## Between two calls of `handleEvents` -/

/-- A socket other than the listening one has a mask exactly if it is in the table under its own
    descriptor. -/
def TablesAgree (p : Program PS CP CR) : Prop :=
  ∀ sock : Nat, sock ≠ p.listenSock → ((∃ m, p.server.socketsMasks[sock]? = some m) ↔
    ∃ i, p.server.readingConnections[sock]? = some i ∧ (p.server.conn i).sock = sock)

/-- A connection in the table with output to send has `HI_WRITE` in its mask. -/
def OutputWatched (p : Program PS CP CR) : Prop :=
  ∀ sock i : Nat, p.server.readingConnections[sock]? = some i → (p.server.conn i).Unsent →
    ∃ m, p.server.socketsMasks[sock]? = some m ∧ m.write = true

/-- **Pending output is always watched.** In every state after any history of accepts, reads, writes, errors,
    answers, partial sends and clean-ups, wherever a clean-up's iterator goes, and so between any two calls of
    `handleEvents`: the watcher and the table agree, and every connection in the table that has output to send
    is watched for writing. -/
theorem output_always_watched (lib : Library PS CP CR) (listenSock : Nat) {events : List Event}
    (hrun : (init lib listenSock).runReaching lib events = some p) : TablesAgree p ∧ OutputWatched p := by
  obtain ⟨hdistinct, hwatched⟩ : WellKept p :=
    run_invariant WellKept WellKept.stepReaching (WellKept.init lib listenSock) hrun
  refine ⟨fun sock hsock => ?_, fun sock i ht hu => hwatched.output ht id hu⟩
  have hagree := hwatched.agree hsock
  constructor
  · rintro ⟨m, hm⟩
    rw [hm] at hagree
    obtain ⟨i, hi⟩ := Option.isSome_iff_exists.mp hagree.symm
    exact ⟨i, hi, (hdistinct.table hi).2⟩
  · rintro ⟨i, hi, -⟩
    rw [hi] at hagree
    exact Option.isSome_iff_exists.mp hagree

/-- Two connections are accepted, and a part of a response is sent on the first. Ten seconds later the
    clean-up reaches the second only. -/
def partlySent : List Event :=
  [.input (.loop (.poll [.accept])), .input (.loop (.accept [5, 6] 0)), .input (.loop .lock), .cleanUp [] 0,
    .input (.loop (.poll [.read 5])),
    .input (.loop (.read [.data HttpConnection.oneGet, .again] 0 ⟨[.http ⟨200, ascii "hello", []⟩], false⟩)),
    .input (.loop .lock), .input (.loop (.drain (.accepted 20) 0 ⟨[], false⟩)), .cleanUp [6] 10]

theorem partlySent_runs : ((init HttpConnection.oneGetLibrary 3).runReaching HttpConnection.oneGetLibrary
    partlySent).isSome = true := by decide +kernel

theorem partlySent_watched : ∃ p : Program Unit Unit Unit,
    (init HttpConnection.oneGetLibrary 3).runReaching HttpConnection.oneGetLibrary partlySent = some p ∧
      p.server.phase = .idle ∧ (p.server.conn 0).sendBuffer.length ≠ 0 ∧
      p.server.readingConnections.size = 1 ∧ TablesAgree p ∧ OutputWatched p := by
  have hrun := (Option.some_get partlySent_runs).symm
  exact ⟨_, hrun, by decide +kernel, by decide +kernel, by decide +kernel,
    output_always_watched HttpConnection.oneGetLibrary 3 hrun⟩

end Program

end HttpServer
end Hiaux
