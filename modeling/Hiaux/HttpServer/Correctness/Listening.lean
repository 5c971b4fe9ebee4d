import Hiaux.HttpServer.Correctness.Masks

/-!
# `HttpServer.Correctness.Listening` — the server goes on listening

The watcher calls `onAccept` for a readable socket whose mask has `HI_ACCEPT`, and `onRead` for any other. The
constructor gives that mask to the listening socket. No call of the watcher gives it to another socket, and none is
for the listening one: the connections have other descriptors, and the table has none under that one.
-/

namespace Hiaux
namespace HttpServer

open Lib Network Server

variable {PS CP CR : Type}

/-! ## The masks for accepting -/

namespace WatcherCall

variable {masks masks' : Std.ExtTreeMap Nat Mask} {sock : Nat}

/-- Calls for other sockets leave an entry alone. -/
theorem getElem?_of_run {calls : List WatcherCall} (hsocks : ∀ c ∈ calls, c.sock ≠ sock)
    (hrun : Lib.run onMasks masks calls = some masks') : masks'[sock]? = masks[sock]? := by
  induction calls generalizing masks with
  | nil => rw [Option.some.inj hrun]
  | cons c calls ih =>
      obtain ⟨masks₁, hc, hrun⟩ := Option.bind_eq_some_iff.mp hrun
      rw [ih (fun c' hc' => hsocks c' (List.mem_cons_of_mem c hc')) hrun, getElem?_onMasks hc,
        if_neg (hsocks c List.mem_cons_self).symm]

/-- A call enables accepting for no socket. -/
theorem accept_of_entry {c : WatcherCall} {m : Mask} {old : Option Mask} (h : c.entry old = some m)
    (haccept : m.accept = true) : ∃ m', old = some m' ∧ m'.accept = true := by
  cases c with
  | addSocket sock =>
      rw [← Option.some.inj h] at haccept
      exact absurd haccept (by simp)
  | enableEvents sock =>
      obtain ⟨m', hm', rfl⟩ := Option.map_eq_some_iff.mp h
      exact ⟨m', hm', haccept⟩
  | delSocket sock => exact absurd h (by simp [entry])

theorem accept_of_run {calls : List WatcherCall} {m : Mask} (hrun : Lib.run onMasks masks calls = some masks')
    (hm : masks'[sock]? = some m) (haccept : m.accept = true) :
    ∃ m', masks[sock]? = some m' ∧ m'.accept = true := by
  induction calls generalizing masks with
  | nil => exact ⟨m, Option.some.inj hrun ▸ hm, haccept⟩
  | cons c calls ih =>
      obtain ⟨masks₁, hc, hrun⟩ := Option.bind_eq_some_iff.mp hrun
      obtain ⟨m₁, hm₁, haccept₁⟩ := ih hrun
      rw [getElem?_onMasks hc] at hm₁
      split at hm₁
      · rename_i hs
        exact hs ▸ accept_of_entry hm₁ haccept₁
      · exact ⟨m₁, hm₁, haccept₁⟩

end WatcherCall

namespace Server

variable {s : Server PS CP CR}

/-! ## Notifications -/

/-- What the watcher reports of a socket that is readable: the end of its test of `EPOLLIN`, or of
    `EVFILT_READ`. -/
def readable (s : Server PS CP CR) (sock : Nat) : Notification :=
  match s.socketsMasks[sock]? with
  | none => .read sock
  | some m => if m.accept then .accept else .read sock

end Server

namespace Program

variable {lib : Library PS CP CR} {p p' : Program PS CP CR}

/-- What is reported: a socket is read if the watcher finds no mask for accepting, and there are no errors on the
    listening socket. -/
def Reported (p : Program PS CP CR) : Notification → Prop
  | .read sock => p.server.readable sock = .read sock
  | .error sock => sock ≠ p.listenSock
  | _ => True

instance (p : Program PS CP CR) (n : Notification) : Decidable (p.Reported n) := by
  cases n
  case read sock => exact inferInstanceAs (Decidable (p.server.readable sock = .read sock))
  case error sock => exact inferInstanceAs (Decidable (sock ≠ p.listenSock))
  all_goals exact instDecidableTrue

/-- The notification that the loop takes next is one that is reported. -/
def Dispatched (p : Program PS CP CR) : Event → Prop
  | .input (.loop _) =>
      match p.server.phase with
      | .events (n :: _) => p.Reported n
      | _ => True
  | _ => True

instance (p : Program PS CP CR) (event : Event) : Decidable (p.Dispatched event) := by
  unfold Dispatched
  split
  · split
    · infer_instance
    · exact instDecidableTrue
  · exact instDecidableTrue

/-- The listening socket is watched for accepting, and no other. -/
structure Listening (p : Program PS CP CR) : Prop where
  mask : p.server.socketsMasks[p.listenSock]? = some ⟨true, false, true⟩
  only : ∀ {sock : Nat} {m : Mask}, p.server.socketsMasks[sock]? = some m → m.accept = true → sock = p.listenSock

theorem Listening.calls (h : Listening p) (hcalls : Calls (· ≠ p.listenSock) p.server p'.server)
    (hlisten : p'.listenSock = p.listenSock) : Listening p' := by
  obtain ⟨calls, hsocks, hrun⟩ := hcalls
  refine ⟨?_, fun ht haccept => ?_⟩
  · rw [hlisten, WatcherCall.getElem?_of_run hsocks hrun, h.mask]
  · obtain ⟨m, hm, haccept⟩ := WatcherCall.accept_of_run hrun ht haccept
    exact (h.only hm haccept).trans hlisten.symm

/-- A socket that is read is not the listening one. -/
theorem Listening.ne_of_readable (h : Listening p) {sock : Nat} (hread : p.server.readable sock = .read sock) :
    sock ≠ p.listenSock := by
  rintro rfl
  rw [readable, h.mask] at hread
  exact absurd hread (by simp)

theorem listenSock_stepReaching {event : Event} (hstep : p.stepReaching lib event = some p') :
    p'.listenSock = p.listenSock := by
  cases event with
  | input input =>
      obtain ⟨hstep, -⟩ := Option.filter_eq_some_iff.mp hstep
      rcases step_cases hstep with ⟨loop, t, -, -, -, rfl⟩ | ⟨i, k, r, -, -, -, -, rfl⟩ |
        ⟨i, k, resp, -, -, -, rfl⟩ | ⟨i, n, -, -, rfl⟩ <;> rfl
  | cleanUp reached now =>
      simp only [Program.stepReaching] at hstep
      split at hstep
      · rw [← Option.some.inj hstep]
      · exact absurd hstep (by simp)

/-- No notification is of the listening socket, except that it can be accepted from. -/
theorem Listening.next (h : Listening p) {event : Event} (hreported : p.Dispatched event) :
    p.Next (· ≠ p.listenSock) event := by
  unfold Next
  split
  · split
    · rename_i hevents
      simp only [Dispatched, hevents] at hreported
      exact h.ne_of_readable hreported
    · rename_i hevents
      simp only [Dispatched, hevents] at hreported
      exact hreported
    · trivial
  · trivial

/-- **Every step**, also with a clean-up that goes on. -/
theorem Listening.step {event : Event} (h : Listening p) (hkept : WellKept p) (hreported : p.Dispatched event)
    (hstep : p.stepReaching lib event = some p') : Listening p' :=
  h.calls (hkept.calls (fun _ => id) (h.next hreported) hstep) (listenSock_stepReaching hstep)

theorem Listening.init (lib : Library PS CP CR) (listenSock : Nat) : Listening (init lib listenSock) := by
  have hmask : ∀ sock : Nat, (Program.init lib listenSock).server.socketsMasks[sock]? =
      if listenSock = sock then some ⟨true, false, true⟩ else none := by
    intro sock
    show ((∅ : Std.ExtTreeMap Nat Mask).insert listenSock ⟨true, false, true⟩)[sock]? = _
    rw [Std.ExtTreeMap.getElem?_insert]
    simp only [compare_eq_iff_eq, Std.ExtTreeMap.getElem?_empty]
  refine ⟨(hmask listenSock).trans (if_pos rfl), fun ht _ => ?_⟩
  rw [hmask] at ht
  split at ht
  · rename_i hs
    exact hs.symm
  · exact absurd ht (by simp)

theorem Listening.readable_eq (h : Listening p) (sock : Nat) :
    p.server.readable sock = if sock = p.listenSock then .accept else .read sock := by
  by_cases hs : sock = p.listenSock
  · rw [if_pos hs, readable, hs, h.mask]
    rfl
  · rw [if_neg hs, readable]
    cases hm : p.server.socketsMasks[sock]? with
    | none => rfl
    | some m => exact if_neg fun haccept => hs (h.only hm haccept)

/-- **The server goes on listening.** Whatever is accepted, read, written, answered, thrown, killed and cleaned up,
    as long as no error is reported for the listening socket: the watcher has it for accepting, it is not taken
    for a connection, and a socket that is readable is accepted from if it is the listening one and read if not. -/
theorem always_listening (lib : Library PS CP CR) (listenSock : Nat) {events : List Event}
    (hreported : Along (Program.stepReaching lib) Dispatched (init lib listenSock) events)
    (hrun : (init lib listenSock).runReaching lib events = some p) :
    p.server.socketsMasks[listenSock]? = some ⟨true, false, true⟩ ∧
      p.server.readingConnections[listenSock]? = none ∧
      ∀ sock, p.server.readable sock = if sock = listenSock then .accept else .read sock := by
  obtain ⟨⟨hkept, hlistening⟩, hlisten⟩ : (WellKept p ∧ Listening p) ∧ p.listenSock = listenSock := by
    refine hreported.invariant (fun p => (WellKept p ∧ Listening p) ∧ p.listenSock = listenSock) ?_
      ⟨⟨WellKept.init lib listenSock, Listening.init lib listenSock⟩, rfl⟩ hrun
    rintro q event q' ⟨⟨hkept, hlistening⟩, hlisten⟩ hdispatched hstep
    refine ⟨⟨hkept.stepReaching hstep, hlistening.step hkept hdispatched hstep⟩, ?_⟩
    exact (listenSock_stepReaching hstep).trans hlisten
  subst hlisten
  refine ⟨hlistening.mask, ?_, hlistening.readable_eq⟩
  cases ht : p.server.readingConnections[p.listenSock]? with
  | none => rfl
  | some i => exact absurd rfl (hkept.2.own ht).2

theorem partlySent_reported : Along (Program.stepReaching HttpConnection.oneGetLibrary) Dispatched
    (init HttpConnection.oneGetLibrary 3) partlySent := by decide +kernel

theorem partlySent_listening : ∃ p : Program Unit Unit Unit,
    (init HttpConnection.oneGetLibrary 3).runReaching HttpConnection.oneGetLibrary partlySent = some p ∧
      p.server.socketsMasks[3]? = some ⟨true, false, true⟩ ∧ p.server.readingConnections[3]? = none ∧
      ∀ sock, p.server.readable sock = if sock = 3 then .accept else .read sock := by
  have hrun := (Option.some_get partlySent_runs).symm
  exact ⟨_, hrun, always_listening HttpConnection.oneGetLibrary 3 partlySent_reported hrun⟩

end Program

end HttpServer
end Hiaux
