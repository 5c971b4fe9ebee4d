import Hiaux.BinClient.Correctness.Callbacks

/-!
# `BinClient.Correctness.Missing` — elements that are not there

Two places of the client take an element for granted: `onResponse` the front of the sent requests, and
`putRequestsToFreeConnections` the entry it found among the free connections before it sent. The first is
missing when the server answers more than it was asked; the second when the send failed for good, and the
connection was taken from the tables on the way.
-/

namespace Hiaux
namespace BinClient

open Lib Strings Network Events

/-- **A receive reads the front of an empty queue** exactly when it brings more responses than there are
    requests to answer. -/
theorem Connection.undefined_performRecv (junk : Junk) (rs : List RecvResult) (c : Connection) :
    ((c.performRecv junk rs).undefined = true ∧ recvLoop [] rs ≠ .hang) ↔
      c.sentRequests.length < (c.responses junk rs).length := by
  unfold performRecv responses
  cases hloop : recvLoop [] rs with
  | bytes readbf =>
      have hundef : (c.afterRecv junk readbf).undefined =
          decide (c.sentRequests.length < (c.parsed junk readbf).outputs.length) := by
        rw [afterRecv_eq]
      dsimp only
      rw [hundef, decide_eq_true_iff]
      exact and_iff_left (by simp)
  | lost => exact iff_of_false (fun h => absurd h.1 (by simp)) (Nat.not_lt_zero _)
  | hang => exact iff_of_false (fun h => h.2 rfl) (Nat.not_lt_zero _)

namespace WatchedClient

variable {w : WatchedClient} {i : Nat}

/-! ## Reads -/

theorem missing_performRecv (hgood : w.missing = false) (i : Nat) (junk : Junk) (rs : List RecvResult)
    (dialed : Option Dialed) :
    (w.performRecv i junk rs dialed).missing = false ↔
      ((w.client.conn i).responses junk rs).length ≤ (w.client.conn i).sentRequests.length := by
  rw [← Nat.not_lt, ← Connection.undefined_performRecv]
  unfold performRecv
  dsimp only
  by_cases hundef : ((w.client.conn i).performRecv junk rs).undefined = true
  · rw [if_pos hundef]
    simp [hundef]
  · rw [if_neg hundef]
    refine iff_of_true ?_ fun hread => hundef hread.1
    rcases ((w.client.conn i).performRecv junk rs).thrown with _ | _ | _ | _
    · exact hgood
    · exact (sameCalls_onLostConnection _ i dialed).missing.trans hgood
    · exact hgood
    · exact (sameCalls_onLostConnection _ i dialed).missing.trans hgood

theorem missing_onRead (hgood : w.missing = false) {sock : Nat} (hi : w.client.connections[sock]? = some i)
    (junk : Junk) (rs : List RecvResult) (dialed : Option Dialed) :
    (w.onRead sock junk rs dialed).missing = false ↔
      ((w.client.conn i).responses junk rs).length ≤ (w.client.conn i).sentRequests.length := by
  rw [← missing_performRecv hgood i junk rs dialed]
  unfold onRead
  rw [hi]
  dsimp only
  split
  · rfl
  · exact Iff.rfl

/-! ## Writes and errors -/

theorem Between.missing_onWrite (h : Between w) (hu : w.client.undefined = false) (sock : Nat)
    (r : SendResult) (dialed : Option Dialed) : (w.onWrite sock r dialed).missing = w.missing := by
  cases hi : w.client.connections[sock]? with
  | none =>
      rw [onWrite_none hi]
      rfl
  | some i =>
      obtain ⟨v, -, hsame, heq, -⟩ := h.onWriteLocked_eq (h.idle hu) hi r dialed
      unfold WatchedClient.onWrite
      rw [heq]
      exact hsame.missing

theorem missing_onError (w : WatchedClient) (sock : Nat) (dialed : Option Dialed) :
    (w.onError sock dialed).missing = w.missing := by
  unfold onError
  cases w.client.connections[sock]? with
  | none => rfl
  | some i => exact (sameCalls_onLostConnection w i dialed).missing

/-! ## Runs -/

/-- What keeps a step from touching an element that is not there: a read brings a connection no more responses
    than it has requests to answer, and the send of a request handed to a free connection does not fail for
    good. -/
def FindsElements (w : WatchedClient) (input : BinClientA.Input) : Prop :=
  w.client.undefined = false →
    match input with
    | .call _ => True
    | .handleEvents dialed put _ _ _ => ¬ PutLost w.client dialed put
    | .read sock junk rs _ => ∀ i ∈ w.client.connections[sock]?,
        ((w.client.conn i).responses junk rs).length ≤ (w.client.conn i).sentRequests.length
    | .write _ _ _ => True
    | .error _ _ => True

instance (w : WatchedClient) (input : BinClientA.Input) : Decidable (FindsElements w input) :=
  BinClientA.Input.casesOn input (fun _ => isTrue fun _ => True.intro)
    (fun dialed put _ _ _ => inferInstanceAs (Decidable (w.client.undefined = false → ¬ PutLost w.client dialed put)))
    (fun sock junk rs _ => inferInstanceAs (Decidable (w.client.undefined = false →
      ∀ i ∈ w.client.connections[sock]?,
        ((w.client.conn i).responses junk rs).length ≤ (w.client.conn i).sentRequests.length)))
    (fun _ _ _ => isTrue fun _ => True.intro) (fun _ _ => isTrue fun _ => True.intro)

/-- **One step.** -/
theorem Between.missing_step (h : Between w) (hgood : w.missing = false) (pb : Protobuf)
    (input : BinClientA.Input) :
    (∀ v, w.step pb input = some v → v.missing = false) ↔ FindsElements w input := by
  unfold FindsElements
  apply forall_step_iff
  intro hu
  unfold WatchedClient.step
  rw [if_neg (by simp [hu])]
  cases input with
  | call c => exact iff_of_true (fun v hv => Option.some.inj hv ▸ hgood) True.intro
  | handleEvents dialed put redialed now keepalive =>
      simp only [Option.some.injEq, forall_eq']
      constructor
      · intro hafter hlost
        have hgone := (h.consistent.handleEvents_lost (h.idle hu) hlost redialed now keepalive).1
        exact absurd (hafter.symm.trans hgone) (by simp)
      · intro hkept
        exact (h.consistent.handleEvents_kept (h.idle hu) h.unlocked hkept redialed now
          keepalive).1.missing.trans hgood
  | read sock junk rs redialed =>
      simp only [Option.some.injEq, forall_eq']
      cases hi : w.client.connections[sock]? with
      | none =>
          have hsame : w.onRead sock junk rs redialed = w := by
            unfold WatchedClient.onRead
            rw [hi]
          rw [hsame]
          exact iff_of_true hgood fun i hi' => absurd hi' (by simp)
      | some i => exact (missing_onRead hgood hi junk rs redialed).trans ⟨fun hkept j hj =>
          Option.some.inj hj ▸ hkept, fun hkept => hkept i rfl⟩
  | write sock r redialed =>
      exact iff_of_true (fun v hv =>
        Option.some.inj hv ▸ (h.missing_onWrite hu sock r redialed).trans hgood) True.intro
  | error sock redialed =>
      exact iff_of_true (fun v hv => Option.some.inj hv ▸ (missing_onError w sock redialed).trans hgood)
        True.intro

/-- **No element is missing**, whatever the server sends and whatever becomes of the sends, exactly when no
    read brings more responses than the connection has requests to answer, and no send of a request handed to
    a free connection fails for good. -/
theorem elements_found_iff (pb : Protobuf) {attempts : List (Option Dialed)}
    {inputs : List BinClientA.Input} {w₀ : WatchedClient} (hnew : new attempts = some w₀) :
    Always (step pb) (·.missing = false) w₀ inputs ↔ Along (step pb) FindsElements w₀ inputs :=
  always_iff_along_of_invariant Between Between.step (fun h hgood => h.missing_step hgood pb _)
    (Between.new hnew) (new_calls hnew).1.missing

/-- A request is handed to a free connection, and answered. -/
def answered : List BinClientA.Input :=
  [.read 5 (fun _ => 0) [.data (ascii "hiapi_connected"), .again] none, .write 5 (.accepted 1000) none,
    .call pingCall, .handleEvents none (.accepted 1000) none 0 fun _ => .again,
    .read 5 (fun _ => 0) [.data (ascii "2\nok"), .again] none]

theorem answered_runs :
    (Lib.run (step shortWire) ((new BinClientA.oneAttempt).get oneAttempt_watched)
      answered).isSome = true := by decide +kernel

/-- The theorem at that run. -/
theorem answered_found : ∃ w₀ w, new BinClientA.oneAttempt = some w₀ ∧
    Lib.run (step shortWire) w₀ answered = some w ∧ w.callbacks.map (·.call.resp) = [ascii "ok"] ∧
    Always (step shortWire) (·.missing = false) w₀ answered := by
  refine ⟨_, _, (Option.some_get oneAttempt_watched).symm, (Option.some_get answered_runs).symm,
    by decide +kernel, ?_⟩
  rw [elements_found_iff shortWire (Option.some_get oneAttempt_watched).symm]
  decide +kernel

/-- The handshake, and a response nobody asked for. -/
def unasked : List BinClientA.Input :=
  [.read 5 (fun _ => 0) [.data (ascii "hiapi_connected2\nok"), .again] none]

theorem unasked_runs :
    (Lib.run (step shortWire) ((new BinClientA.oneAttempt).get oneAttempt_watched)
      unasked).isSome = true := by decide +kernel

/-- `onResponse` reads the front of an empty queue. -/
theorem unasked_missing :
    ¬ Always (step shortWire) (·.missing = false) ((new BinClientA.oneAttempt).get oneAttempt_watched)
      unasked := by
  intro h
  have hlast := h unasked _ List.prefix_rfl (Option.some_get unasked_runs).symm
  have hrun : ((Lib.run (step shortWire) ((new BinClientA.oneAttempt).get oneAttempt_watched)
      unasked).get unasked_runs).missing = true := by decide +kernel
  exact absurd (hlast.symm.trans hrun) (by simp)

end WatchedClient
end BinClient
end Hiaux
