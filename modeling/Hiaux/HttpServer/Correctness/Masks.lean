import Hiaux.Events.Correctness.EnabledEvents
import Hiaux.HttpServer.Correctness.Watched

/-!
# `HttpServer.Correctness.Masks` — the masks of the server are the watcher's

The server's model keeps, for every socket, which events its mask enables. What a step does to these masks is a
sequence of calls of the watcher (`Calls`). Both watchers follow each of them (`Mirrors.call`): the call returns,
where a failed one would end the process, and `m_sockets_masks` has the server's masks again. So they have them in
every state of every run (`watchers_follow`).
-/

namespace Hiaux
namespace HttpServer

open Lib Network Server
open Events (Watchers hiAccept hiRead hiWrite)

variable {PS CP CR : Type}

/-! ## Calls of the watcher -/

/-- A call of the server that listens. -/
inductive WatcherCall where
  | addSocket (sock : Nat)
  | enableEvents (sock : Nat)
  | delSocket (sock : Nat)

namespace WatcherCall

def sock : WatcherCall → Nat
  | .addSocket sock => sock
  | .enableEvents sock => sock
  | .delSocket sock => sock

/-- What a call does to the masks. A socket is added that has none. -/
def onMasks (masks : Std.ExtTreeMap Nat Mask) : WatcherCall → Option (Std.ExtTreeMap Nat Mask)
  | .addSocket sock =>
      match masks[sock]? with
      | none => some (masks.insert sock ⟨true, false, false⟩)
      | some _ => none
  | .enableEvents sock =>
      match masks[sock]? with
      | none => some masks
      | some m => some (masks.insert sock { m with read := true, write := true })
  | .delSocket sock => some (masks.erase sock)

/-- The call with its arguments. -/
def call : WatcherCall → Events.Call
  | .addSocket sock => .addSocket sock hiRead
  | .enableEvents sock => .enableEvents sock (hiRead ||| hiWrite)
  | .delSocket sock => .delSocket sock

/-- The entry of the socket afterwards. -/
def entry : WatcherCall → Option Mask → Option Mask
  | .addSocket _, _ => some ⟨true, false, false⟩
  | .enableEvents _, m => m.map (fun m => { m with read := true, write := true })
  | .delSocket _, _ => none

variable {masks masks' : Std.ExtTreeMap Nat Mask} {c : WatcherCall}

/-- **A call changes the entry of its socket.** -/
theorem getElem?_onMasks (h : onMasks masks c = some masks') (sock : Nat) :
    masks'[sock]? = if sock = c.sock then c.entry masks[c.sock]? else masks[sock]? := by
  have hinsert : ∀ (k : Nat) (m : Mask),
      (masks.insert k m)[sock]? = if sock = k then some m else masks[sock]? := by
    intro k m
    rw [Std.ExtTreeMap.getElem?_insert]
    exact if_congr (compare_eq_iff_eq.trans eq_comm) rfl rfl
  cases c with
  | addSocket k =>
      dsimp only [onMasks] at h
      split at h
      · rw [← Option.some.inj h, hinsert]
        rfl
      · exact absurd h (by simp)
  | enableEvents k =>
      dsimp only [onMasks] at h
      show _ = if sock = k then (masks[k]?).map (fun m => { m with read := true, write := true }) else masks[sock]?
      split at h
      · rename_i hnone
        rw [← Option.some.inj h, hnone]
        by_cases hs : sock = k
        · rw [if_pos hs, hs, hnone]
          rfl
        · rw [if_neg hs]
      · rename_i m hm
        rw [← Option.some.inj h, hinsert, hm]
        rfl
  | delSocket k =>
      rw [← Option.some.inj h, Std.ExtTreeMap.getElem?_erase]
      exact if_congr (compare_eq_iff_eq.trans eq_comm) rfl rfl

end WatcherCall

/-! ## The watchers follow -/

/-- The mask as a watcher keeps it. -/
def Mask.word (m : Mask) : Events.Mask :=
  (if m.read then hiRead else 0#32) ||| (if m.write then hiWrite else 0#32) |||
    (if m.accept then hiAccept else 0#32)

/-- Enabling both events in a mask. -/
theorem Mask.word_enable (m : Mask) : m.word ||| (~~~m.word &&& (hiRead ||| hiWrite)) =
    Mask.word { m with read := true, write := true } := by
  obtain ⟨read, write, accept⟩ := m
  cases read <;> cases write <;> cases accept <;> decide

/-- Watchers that have the masks in `m_sockets_masks`, and have told the kernel. -/
structure Mirrors (ws : Watchers) (masks : Std.ExtTreeMap Nat Mask) : Prop where
  synced : Watchers.Synced ws
  entries : ∀ sock : Nat, ws.epoll.socketsMasks sock = (masks[sock]?).map Mask.word

section Mirrors

variable {ws : Watchers} {masks masks' : Std.ExtTreeMap Nat Mask} {c : WatcherCall}

theorem Mirrors.entry (h : Mirrors ws masks) {sock : Nat} {m : Option Mask} (hm : masks[sock]? = m) :
    ws.epoll.socketsMasks sock = m.map Mask.word := by
  rw [h.entries, hm]

/-- A change of one entry on both sides. -/
theorem Mirrors.change (h : Mirrors ws masks) {sock : Nat} {m : Option Mask}
    (hmasks : ∀ sock' : Nat, masks'[sock']? = if sock' = sock then m else masks[sock']?)
    {events : Option Events.Mask} (hknown : events.isSome = (m.map Mask.word).isSome) :
    Mirrors (ws.change sock (m.map Mask.word) events) masks' := by
  refine ⟨h.synced.change hknown, ?_⟩
  intro sock'
  show Function.update ws.epoll.socketsMasks sock _ sock' = _
  rw [hmasks]
  by_cases hs : sock' = sock
  · rw [if_pos hs, hs, Function.update_self]
  · have hne : (sock' : Int) ≠ sock := fun he => hs (Int.ofNat.inj he)
    rw [if_neg hs, Function.update_of_ne hne, h.entries]

/-- **The watchers follow a call.** -/
theorem Mirrors.call (h : Mirrors ws masks) (hc : WatcherCall.onMasks masks c = some masks') :
    ∃ ws', ws.step c.call = some ws' ∧ Mirrors ws' masks' := by
  have hmasks := WatcherCall.getElem?_onMasks hc
  cases c with
  | addSocket sock =>
      dsimp only [WatcherCall.onMasks] at hc
      split at hc
      · rename_i hnone
        have hfree : ws.epoll.socketsMasks sock = none := h.entry hnone
        exact ⟨_, (Watchers.step_addSocket h.synced sock hiRead).trans (if_pos hfree),
          h.change (m := some ⟨true, false, false⟩) hmasks rfl⟩
      · exact absurd hc (by simp)
  | enableEvents sock =>
      dsimp only [WatcherCall.onMasks] at hc
      split at hc
      · rename_i hnone
        have hfree : ws.epoll.socketsMasks sock = none := h.entry hnone
        exact ⟨ws, (Watchers.step_unknown h.synced hfree _).1, Option.some.inj hc ▸ h⟩
      · rename_i m hm
        have hold : ws.epoll.socketsMasks sock = some m.word := h.entry hm
        refine ⟨_, Watchers.step_enableEvents h.synced hold _, ?_⟩
        rw [Mask.word_enable]
        refine h.change (m := some { m with read := true, write := true }) (fun sock' => ?_) rfl
        rw [hmasks sock']
        show (if sock' = sock then (masks[sock]?).map _ else masks[sock']?) = _
        rw [hm]
        rfl
  | delSocket sock =>
      cases hm : masks[sock]? with
      | none =>
          have hfree : ws.epoll.socketsMasks sock = none := h.entry hm
          refine ⟨ws, (Watchers.step_unknown h.synced hfree 0#32).2, h.synced, fun sock' => ?_⟩
          have hsame : masks'[sock']? = if sock' = sock then none else masks[sock']? := hmasks sock'
          rw [h.entries, hsame]
          by_cases hs : sock' = sock
          · rw [if_pos hs, hs, hm]
          · rw [if_neg hs]
      | some m =>
          have hold : ws.epoll.socketsMasks sock = some m.word := h.entry hm
          exact ⟨_, Watchers.step_delSocket h.synced hold, h.change (m := none) hmasks rfl⟩

/-- **They follow all of them.** -/
theorem Mirrors.calls {calls : List WatcherCall} (h : Mirrors ws masks)
    (hrun : run WatcherCall.onMasks masks calls = some masks') :
    ∃ ws', run Watchers.step ws (calls.map WatcherCall.call) = some ws' ∧ Mirrors ws' masks' := by
  induction calls generalizing ws masks with
  | nil => exact ⟨ws, rfl, Option.some.inj hrun ▸ h⟩
  | cons c calls ih =>
      obtain ⟨masks₁, hc, hrun⟩ := Option.bind_eq_some_iff.mp hrun
      obtain ⟨ws₁, hstep, h₁⟩ := h.call hc
      obtain ⟨ws', hrest, h'⟩ := ih h₁ hrun
      exact ⟨ws', Option.bind_eq_some_iff.mpr ⟨ws₁, hstep, hrest⟩, h'⟩

end Mirrors

/-! ## The calls of a step -/

namespace Server

variable {P : Nat → Prop} {listenSock sock : Nat} {s t u : Server PS CP CR}

/-- Calls for sockets of a kind lead from the masks of one state to those of another. -/
def Calls (P : Nat → Prop) (s t : Server PS CP CR) : Prop :=
  ∃ calls : List WatcherCall, (∀ c ∈ calls, P c.sock) ∧
    Lib.run WatcherCall.onMasks s.socketsMasks calls = some t.socketsMasks

theorem Calls.of_masks (P : Nat → Prop) (h : t.socketsMasks = s.socketsMasks) : Calls P s t :=
  ⟨[], fun _ hc => absurd hc List.not_mem_nil, congrArg some h.symm⟩

theorem Calls.refl (P : Nat → Prop) (s : Server PS CP CR) : Calls P s s := .of_masks P rfl

theorem Calls.phase (P : Nat → Prop) (s : Server PS CP CR) (phase : Phase) :
    Calls P s { s with phase := phase } := .of_masks P rfl

theorem Calls.trans (h : Calls P s t) (h' : Calls P t u) : Calls P s u := by
  obtain ⟨calls, hsocks, hrun⟩ := h
  obtain ⟨calls', hsocks', hrun'⟩ := h'
  refine ⟨calls ++ calls', ?_, ?_⟩
  · intro c hc
    exact (List.mem_append.mp hc).elim (hsocks c) (hsocks' c)
  · rw [run_append, hrun]
    exact hrun'

/-- One call. -/
theorem Calls.of_call {c : WatcherCall} (hsock : P c.sock)
    (hc : WatcherCall.onMasks s.socketsMasks c = some t.socketsMasks) : Calls P s t := by
  refine ⟨[c], fun c' hc' => List.mem_singleton.mp hc' ▸ hsock, ?_⟩
  exact Option.bind_eq_some_iff.mpr ⟨_, hc, rfl⟩

theorem Calls.delSocket (hsock : P sock) (s : Server PS CP CR) : Calls P s (s.delSocket sock) :=
  .of_call (c := .delSocket sock) hsock rfl

theorem Calls.enableEvents (hsock : P sock) (s : Server PS CP CR) : Calls P s (s.enableEvents sock) := by
  refine .of_call (c := .enableEvents sock) hsock ?_
  unfold Server.enableEvents
  dsimp only [WatcherCall.onMasks]
  cases s.socketsMasks[sock]? <;> rfl

theorem Calls.acceptOne (hsock : P sock) (lib : Library PS CP CR) (now : Nat)
    (hnone : s.socketsMasks[sock]? = none) : Calls P s (s.acceptOne lib now sock) := by
  refine .of_call (c := .addSocket sock) hsock ?_
  dsimp only [WatcherCall.onMasks]
  rw [hnone]
  rfl

theorem Calls.remove (hsock : P sock) (s : Server PS CP CR) : Calls P s (s.remove sock) :=
  (Calls.delSocket hsock s).trans (.of_masks P rfl)

theorem Calls.killConnection (hsock : P sock) (s : Server PS CP CR) :
    Calls P s (s.killConnection sock) := by
  unfold Server.killConnection
  split
  · exact .delSocket hsock s
  · exact .remove hsock s

/-! ## The operations of the loop -/

theorem Calls.handleWaitingRequests (P : Nat → Prop) (lib : Library PS CP CR) (i : Nat) (o : HandlerOutcome)
    (s : Server PS CP CR) : Calls P s (s.handleWaitingRequests lib i o).1 :=
  .of_masks P (handled_handleWaitingRequests lib i o s).masks

theorem Calls.performRecv (hsock : P sock) (lib : Library PS CP CR) (rs : List RecvResult) (now : Nat)
    (o : HandlerOutcome) (s : Server PS CP CR) : Calls P s (s.performRecv lib sock rs now o) := by
  unfold Server.performRecv
  split
  · exact .delSocket hsock s
  · rename_i i ht
    generalize (s.conn i).performRecv lib rs now = received
    obtain ⟨c, threw⟩ := received
    have hset : Calls P s (s.setConn i c) := .of_masks P rfl
    have hhandle := hset.trans (.handleWaitingRequests P lib i o (s.setConn i c))
    dsimp only
    split
    · exact hset.trans (.killConnection hsock _)
    · split
      · split
        · exact hhandle.trans (.killConnection hsock _)
        · exact hhandle
      · exact hset.trans (.remove hsock _)

theorem Calls.performSend (hown : ∀ i, s.readingConnections[sock]? = some i → P sock) (r : SendResult)
    (now : Nat) : Calls P s (s.performSend sock r now) := by
  unfold Server.performSend
  split
  · exact .refl P s
  · rename_i i ht
    have hset : Calls P s (s.setConn i ((s.conn i).performSend r now).1) := .of_masks P rfl
    dsimp only
    split
    · exact hset.trans (.remove (hown i ht) _)
    · exact hset

theorem Calls.handleResponse {i : Nat} (hown : P (s.conn i).sock) (lib : Library PS CP CR)
    (r : SendResult) (now : Nat) (o : HandlerOutcome) :
    Calls P s (s.handleResponse lib i r now o).1 := by
  unfold Server.handleResponse
  have hsame := HttpConnection.performSend_same r now { s.conn i with waitingLastHandling := false }
  generalize HttpConnection.performSend r now { s.conn i with waitingLastHandling := false } = result at hsame ⊢
  obtain ⟨c, sent⟩ := result
  dsimp only at hsame ⊢
  have hsock : P c.sock := by
    rw [hsame.sock]
    exact hown
  have hset : Calls P s (s.setConn i c) := .of_masks P rfl
  split
  · split
    · exact hset.trans ((Calls.delSocket hsock _).trans (.of_masks P rfl))
    · exact hset.trans (.remove hsock _)
  · refine Calls.trans ?_ (.handleWaitingRequests P lib i o _)
    split
    · exact hset
    · exact hset.trans (.enableEvents hsock _)

/-- A round of draining. -/
theorem Calls.drainOne {i : Nat} (hown : P (s.conn i).sock) (lib : Library PS CP CR) (q : Reply)
    (r : SendResult) (now : Nat) (o : HandlerOutcome) :
    Calls P s (s.drainOne lib i q (popReply q) r now o) := by
  obtain ⟨c, bytes, heq, hsock⟩ := addReply_frame lib now i q s
  have hadd : Calls P s (s.addReply lib now i q) := .of_masks P (by rw [heq]; rfl)
  have hconn : P ((s.addReply lib now i q).conn i).sock := by
    rw [heq, conn, objects_modify_self]
    rw [hsock]
    exact hown
  have hresponse := hadd.trans (.handleResponse hconn lib r now o)
  unfold Server.drainOne
  dsimp only
  split
  · exact hresponse
  · split
    · exact hresponse.trans (.of_masks P rfl)
    · exact hresponse.trans (.of_masks P (by cases q <;> rfl))

theorem Calls.cleanUpOne (h : Watched listenSock (fun _ => False) s)
    (hothers : ∀ sock, sock ≠ listenSock → P sock) (now sock : Nat) : Calls P s (s.cleanUpOne now sock) := by
  unfold Server.cleanUpOne
  split
  · exact .refl P s
  · rename_i i ht
    split
    · exact .refl P s
    · obtain ⟨hsock, hne⟩ := h.own ht
      exact (Calls.delSocket (hothers _ (hsock ▸ hne)) s).trans (.of_masks P rfl)

theorem Calls.cleanUpReached (h : Watched listenSock (fun _ => False) s)
    (hothers : ∀ sock, sock ≠ listenSock → P sock) (now : Nat) (reached : List Nat) :
    Calls P s (s.cleanUpReached now reached) := by
  unfold Server.cleanUpReached
  split
  · exact .refl P s
  · induction reached generalizing s with
    | nil => exact .refl P s
    | cons sock reached ih =>
        exact (Calls.cleanUpOne h hothers now sock).trans (ih (h.cleanUpOne now sock))


end Server

namespace Program

variable {lib : Library PS CP CR} {P : Nat → Prop} {p p' : Program PS CP CR}

theorem calls_performAccept (hd : Distinct p) (h : Watched p.listenSock (fun _ => False) p.server)
    (hothers : ∀ sock, sock ≠ p.listenSock → P sock) (lib : Library PS CP CR) (now : Nat) {socks : List Nat}
    (hnodup : socks.Nodup) (hfresh : ∀ sock ∈ socks, ∀ i, p.Open i → (p.server.conn i).sock ≠ sock)
    (hlisten : ∀ sock ∈ socks, sock ≠ p.listenSock) :
    Calls P p.server (p.server.performAccept lib socks now) := by
  induction socks generalizing p with
  | nil => exact .refl P p.server
  | cons sock socks ih =>
      obtain ⟨hnot, hnodup⟩ := List.nodup_cons.mp hnodup
      have hfree := hd.lookup_fresh (hfresh sock List.mem_cons_self)
      have hne := hlisten sock List.mem_cons_self
      have hone := hd.acceptOne lib now (hfresh sock List.mem_cons_self) hne
      have hwatched := h.acceptOne lib now hfree hne (fun ht => (hd.table ht).1)
      have hnone : p.server.socketsMasks[sock]? = none := by
        rw [← Option.not_isSome_iff_eq_none, h.agree hne, hfree]
        exact Bool.false_ne_true
      refine (Calls.acceptOne (hothers sock hne) lib now hnone).trans (ih hone hwatched hothers hnodup ?_ ?_)
      · exact hd.fresh_acceptOne lib now hnot hfresh
      · exact fun sock' hmem => hlisten sock' (List.mem_cons_of_mem sock hmem)

/-- The notification that the loop takes next, for a read or an error, is of a socket of the kind. -/
def Next (P : Nat → Prop) (p : Program PS CP CR) : Event → Prop
  | .input (.loop _) =>
      match p.server.phase with
      | .events (.read sock :: _) => P sock
      | .events (.error sock :: _) => P sock
      | _ => True
  | _ => True

/-- **A step of the loop.** -/
theorem WellKept.calls_loop {input : Server.Input} {t : Server PS CP CR} (h : WellKept p)
    (hothers : ∀ sock, sock ≠ p.listenSock → P sock) (hnext : p.Next P (.input (.loop input)))
    (hadmissible : p.Admissible input) (ht : p.server.step lib input = some t) : Calls P p.server t := by
  have hstep := ht
  have hphase := Calls.phase P p.server
  unfold Server.step at ht
  split at ht
  · exact absurd ht (by simp)
  · split at ht
    · exact Option.some.inj ht ▸ hphase _
    · rename_i socks now rest hevents
      have hdistinct : Distinct { p with server := { p.server with phase := .events rest } } :=
        h.1.shrink rfl rfl (fun _ => rfl) id (fun _ => id)
      rw [← Option.some.inj ht]
      exact (hphase _).trans (calls_performAccept hdistinct (h.2.phase _) hothers lib now hadmissible.1
        (fun sock hmem i hi => h.1.fresh (hadmissible.2 sock hmem) hi)
        (fun sock hmem => (hadmissible.2 sock hmem).1))
    · rename_i hevents
      simp only [Next, hevents] at hnext
      exact Option.some.inj ht ▸ (hphase _).trans (.performRecv hnext lib _ _ _ _)
    · rw [← Option.some.inj ht]
      refine (hphase _).trans (.performSend ?_ _ _)
      exact fun i hi => hothers _ (h.2.own hi).2
    · rename_i hevents
      simp only [Next, hevents] at hnext
      exact Option.some.inj ht ▸ (hphase _).trans (.killConnection hnext _)
    · exact Option.some.inj ht ▸ hphase _
    · obtain ⟨-, -, i, q, hfront, rfl⟩ := step_drain hstep
      exact .drainOne (hothers _ (h.1.listen (open_of_front hfront))) lib q _ _ _
    · obtain ⟨-, rfl⟩ := step_finish.mp hstep
      rw [cleanUp_eq]
      exact .of_masks P rfl
    · split at ht
      · exact Option.some.inj ht ▸ .of_masks P (handled_reply _ _ _ p.server).masks
      · exact absurd ht (by simp)
    · exact absurd ht (by simp)

/-- **Every step**, also with a clean-up that goes on. -/
theorem WellKept.calls {event : Event} (h : WellKept p) (hothers : ∀ sock, sock ≠ p.listenSock → P sock)
    (hnext : p.Next P event) (hstep : p.stepReaching lib event = some p') : Calls P p.server p'.server := by
  cases event with
  | input input =>
      obtain ⟨hstep, -⟩ := Option.filter_eq_some_iff.mp hstep
      rcases step_cases hstep with ⟨loop, t, rfl, hadmissible, ht, rfl⟩ | ⟨i, k, r, -, -, -, -, rfl⟩ |
        ⟨i, k, resp, -, -, -, rfl⟩ | ⟨i, n, -, -, rfl⟩
      · exact h.calls_loop hothers hnext hadmissible ht
      · exact .of_masks P (handled_reply i k r p.server).masks
      · exact .of_masks P rfl
      · exact .refl P p.server
  | cleanUp reached now =>
      simp only [Program.stepReaching] at hstep
      split at hstep
      · rw [← Option.some.inj hstep]
        exact (Calls.cleanUpReached h.2 hothers now reached).trans (.phase P _ .idle)
      · exact absurd hstep (by simp)

/-- The constructor's call. -/
theorem mirrors_init (lib : Library PS CP CR) (listenSock : Nat) :
    ∃ ws, Watchers.init.step (.addSocket listenSock (hiRead ||| hiAccept)) = some ws ∧
      Mirrors ws (init lib listenSock).server.socketsMasks := by
  have hempty : Mirrors Watchers.init ∅ :=
    ⟨Watchers.synced_init, fun _ => by rw [Std.ExtTreeMap.getElem?_empty]; rfl⟩
  have hword : hiRead ||| hiAccept = Mask.word ⟨true, false, true⟩ := by decide
  rw [hword]
  refine ⟨_, (Watchers.step_addSocket hempty.synced listenSock _).trans (if_pos rfl), ?_⟩
  refine hempty.change (m := some ⟨true, false, true⟩) (fun sock => ?_) rfl
  show ((∅ : Std.ExtTreeMap Nat Mask).insert listenSock ⟨true, false, true⟩)[sock]? = _
  rw [Std.ExtTreeMap.getElem?_insert]
  exact if_congr (compare_eq_iff_eq.trans eq_comm) rfl rfl

/-- **The watchers have the server's masks.** In every state after any history of accepts, reads, writes, errors,
    answers and clean-ups: the constructor's call of the watcher and the calls after it have all returned, with
    either watcher, and left it with the masks that the server's model has. -/
theorem watchers_follow (lib : Library PS CP CR) (listenSock : Nat) {events : List Event}
    (hrun : (init lib listenSock).runReaching lib events = some p) :
    ∃ (calls : List WatcherCall) (ws : Watchers),
      Lib.run Watchers.step Watchers.init
        (.addSocket listenSock (hiRead ||| hiAccept) :: calls.map WatcherCall.call) = some ws ∧
      Mirrors ws p.server.socketsMasks := by
  have hinv : WellKept p ∧ Calls (fun _ => True) (init lib listenSock).server p.server := by
    refine run_invariant (fun p => WellKept p ∧ Calls (fun _ => True) (init lib listenSock).server p.server) ?_
      ⟨WellKept.init lib listenSock, .refl _ _⟩ hrun
    rintro q event q' ⟨hkept, hcalls⟩ hstep
    have hnext : q.Next (fun _ => True) event := by
      unfold Next
      split
      · split <;> trivial
      · trivial
    exact ⟨hkept.stepReaching hstep, hcalls.trans (hkept.calls (fun _ _ => trivial) hnext hstep)⟩
  obtain ⟨ws₀, hnew, hmirrors₀⟩ := mirrors_init lib listenSock
  obtain ⟨calls, -, hcalls⟩ := hinv.2
  obtain ⟨ws, hws, hmirrors⟩ := hmirrors₀.calls hcalls
  exact ⟨calls, ws, Option.bind_eq_some_iff.mpr ⟨ws₀, hnew, hws⟩, hmirrors⟩

end Program

end HttpServer
end Hiaux
