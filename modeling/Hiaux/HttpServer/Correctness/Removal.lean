import Hiaux.HttpServer.Correctness.Effects

/-!
# `HttpServer.Correctness.Removal` — when a connection is removed twice, or advanced over

Connections leave the table in five places. Three of them erase an entry they have just found. The other two
need not be defined: `handleResponse` erases the entry of a connection it finds dead, which an earlier event
of the batch may have removed already, and the clean-up erases a dead connection and then advances the
iterator to it. `Misremoves` says when this happens, in the state before the step.
-/

namespace Hiaux
namespace HttpServer

open Lib Network

variable {PS CP CR : Type}

namespace Server

variable {s t u : Server PS CP CR} {i : Nat}

/-! ## Steps that are not defined -/

/-- A draining step on a connection that the send leaves dead and that is not in the table, or a clean-up
    while the table has a dead connection. -/
def Misremoves (lib : Library PS CP CR) (s : Server PS CP CR) : Input → Prop
  | .drain r now _ =>
      s.undefined = false ∧ s.phase = .draining ∧ ∃ i q, s.front = some (i, q) ∧
        s.survives lib i q r now = false ∧ s.readingConnections[(s.conn i).sock]? = none
  | .finish now =>
      s.undefined = false ∧ s.phase = .draining ∧ s.respQueue = [] ∧ s.customRespQueue = [] ∧
        ∃ sock i : Nat, s.readingConnections[sock]? = some i ∧ (s.conn i).notDead now = false
  | _ => False

/-- What is asked of a step: what it does is defined, and a clean-up removes exactly the dead connections. -/
structure RemovesWell (s : Server PS CP CR) (input : Input) (t : Server PS CP CR) : Prop where
  defined : t.undefined = false
  cleanUp : ∀ now, input = .finish now → ∀ sock : Nat, t.readingConnections[sock]? =
    (s.readingConnections[sock]?).filter (fun i => (s.conn i).notDead now)

/-! ## Operations that are always defined -/

theorem undefined_killConnection (sock : Nat) (s : Server PS CP CR) :
    (s.killConnection sock).undefined = s.undefined := by
  unfold killConnection
  split <;> rfl

theorem undefined_performRecv (lib : Library PS CP CR) (sock : Nat) (rs : List RecvResult) (now : Nat)
    (o : HandlerOutcome) (s : Server PS CP CR) :
    (s.performRecv lib sock rs now o).undefined = s.undefined := by
  unfold performRecv
  split
  · rfl
  · rename_i i _
    generalize (s.conn i).performRecv lib rs now = received
    obtain ⟨c, threw⟩ := received
    dsimp only
    have hhandle := (handled_handleWaitingRequests lib i o (s.setConn i c)).undefined
    split
    · exact undefined_killConnection sock _
    · split
      · split
        · rw [undefined_killConnection, hhandle]
          rfl
        · exact hhandle
      · rfl

theorem undefined_performSend (sock : Nat) (r : SendResult) (now : Nat) (s : Server PS CP CR) :
    (s.performSend sock r now).undefined = s.undefined := by
  unfold performSend
  split
  · rfl
  · dsimp only
    split <;> rfl

theorem undefined_performAccept (lib : Library PS CP CR) (socks : List Nat) (now : Nat)
    (s : Server PS CP CR) : (s.performAccept lib socks now).undefined = s.undefined := by
  unfold performAccept
  induction socks generalizing s with
  | nil => rfl
  | cons sock socks ih => exact ih (s.acceptOne lib now sock)

/-! ## `handleResponse` and the clean-up -/

/-- **`handleResponse`** is not defined exactly if the send leaves the connection dead and the table has
    nothing under its descriptor. -/
theorem undefined_handleResponse (lib : Library PS CP CR) (i : Nat) (r : SendResult) (now : Nat)
    (o : HandlerOutcome) (s : Server PS CP CR) (hs : s.undefined = false) :
    ((s.handleResponse lib i r now o).1.undefined = true ↔
      let (c, sent) := { s.conn i with waitingLastHandling := false }.performSend r now
      (sent || c.notDead now) = false ∧ s.readingConnections[(s.conn i).sock]? = none) := by
  have hsock := (HttpConnection.performSend_same r now { s.conn i with waitingLastHandling := false }).sock
  unfold handleResponse
  generalize HttpConnection.performSend r now { s.conn i with waitingLastHandling := false } = result
    at hsock ⊢
  obtain ⟨c, sent⟩ := result
  dsimp only at hsock ⊢
  have htab : (s.setConn i c).readingConnections = s.readingConnections := rfl
  rw [← hsock]
  by_cases hdead : (sent || c.notDead now) = false
  · rw [if_pos (by simpa using hdead), htab]
    cases s.readingConnections[c.sock]? with
    | none => exact iff_of_true rfl ⟨hdead, rfl⟩
    | some j => exact iff_of_false (fun hu => absurd (hs.symm.trans hu) (by simp)) (by simp)
  · rw [if_neg (by simpa using hdead)]
    refine iff_of_false ?_ (fun h => hdead h.1)
    rw [(handled_handleWaitingRequests lib i o _).undefined]
    intro hu
    have hkept : ∀ t : Server PS CP CR, t = (if sent then s.setConn i c else
        (s.setConn i c).enableEvents c.sock) → t.undefined = s.undefined := by
      rintro t rfl
      unfold enableEvents
      split
      · rfl
      · split <;> rfl
    exact absurd ((hkept _ rfl).symm.trans hu) (by simp [hs])

/-- A round of draining is not defined exactly if its `handleResponse` is not. -/
theorem undefined_drainOne (lib : Library PS CP CR) (i : Nat) (q : Reply) (r : SendResult) (now : Nat)
    (o : HandlerOutcome) (s : Server PS CP CR) : (s.drainOne lib i q (popReply q) r now o).undefined =
      ((s.addReply lib now i q).handleResponse lib i r now o).1.undefined := by
  unfold drainOne
  dsimp only
  split
  · rfl
  · split
    · rfl
    · cases q <;> rfl

/-- **A draining step is not defined exactly if `Misremoves` says so.** -/
theorem drain_undefined_iff {lib : Library PS CP CR} {r : SendResult} {now : Nat} {o : HandlerOutcome}
    (h : s.step lib (.drain r now o) = some t) :
    t.undefined = true ↔ s.Misremoves lib (.drain r now o) := by
  obtain ⟨hu, hphase, i, q, hfront, rfl⟩ := step_drain h
  obtain ⟨c, bytes, heq, hsock⟩ := addReply_frame lib now i q s
  have hadd : (s.addReply lib now i q).undefined = false := by
    rw [heq]
    exact hu
  have htab : (s.addReply lib now i q).readingConnections[((s.addReply lib now i q).conn i).sock]? =
      s.readingConnections[(s.conn i).sock]? := by
    rw [heq, conn, objects_modify_self]
    exact congrArg (fun sock => s.readingConnections[sock]?) hsock
  rw [undefined_drainOne, undefined_handleResponse lib i r now o _ hadd, htab]
  constructor
  · exact fun hdead => ⟨hu, hphase, i, q, hfront, hdead⟩
  · rintro ⟨-, -, j, q', hfront', hdead⟩
    obtain ⟨rfl, rfl⟩ := Prod.mk.inj (Option.some.inj (hfront.symm.trans hfront'))
    exact hdead

/-- Every connection of the table is alive. -/
theorem all_notDead_iff (now : Nat) (s : Server PS CP CR) :
    s.readingConnections.toList.all (fun si => (s.conn si.2).notDead now) = true ↔
      ∀ sock i : Nat, s.readingConnections[sock]? = some i → (s.conn i).notDead now = true := by
  rw [List.all_eq_true]
  constructor
  · exact fun h sock i ht => h (sock, i) (Std.ExtTreeMap.mem_toList_iff_getElem?_eq_some.mpr ht)
  · exact fun h si hsi => h si.1 si.2 (Std.ExtTreeMap.mem_toList_iff_getElem?_eq_some.mp hsi)

/-- A clean-up changes nothing where it is defined. -/
theorem cleanUp_eq (now : Nat) (s : Server PS CP CR) : s.cleanUpDeadConnections now =
    { s with undefined := (s.cleanUpDeadConnections now).undefined } := by
  unfold cleanUpDeadConnections
  split
  · rfl
  · split <;> rfl

/-- **The clean-up** does what it should exactly if there is nothing to do. -/
theorem cleanUp_removes_iff (now : Nat) (s : Server PS CP CR) (hs : s.undefined = false) :
    ((s.cleanUpDeadConnections now).undefined = false ∧
      ∀ sock : Nat, (s.cleanUpDeadConnections now).readingConnections[sock]? =
        (s.readingConnections[sock]?).filter (fun i => (s.conn i).notDead now)) ↔
      ∀ sock i : Nat, s.readingConnections[sock]? = some i → (s.conn i).notDead now = true := by
  rw [cleanUp_eq]
  constructor
  · rintro ⟨-, hfilter⟩ sock i ht
    have hself := hfilter sock
    rw [ht] at hself
    exact (Option.filter_eq_some_iff.mp hself.symm).2
  · intro hall
    refine ⟨?_, fun sock => ?_⟩
    · unfold cleanUpDeadConnections
      rw [if_pos ((all_notDead_iff now s).mpr hall)]
      split <;> exact hs
    · cases ht : s.readingConnections[sock]? with
      | none => rfl
      | some i => exact (Option.filter_some_pos (p := fun i => (s.conn i).notDead now) (hall sock i ht)).symm

/-! ## Steps -/

/-- Only draining and the clean-up can leave the defined behaviour. -/
theorem step_defined {lib : Library PS CP CR} {input : Input} (h : s.step lib input = some t)
    (hdrain : ∀ r now o, input ≠ .drain r now o) (hfinish : ∀ now, input ≠ .finish now) :
    t.undefined = false := by
  unfold step at h
  split at h
  · exact absurd h (by simp)
  · rename_i hu
    have hu' : s.undefined = false := by simpa using hu
    split at h
    · exact Option.some.inj h ▸ hu'
    · exact Option.some.inj h ▸ (undefined_performAccept _ _ _ _).trans hu'
    · exact Option.some.inj h ▸ (undefined_performRecv _ _ _ _ _ _).trans hu'
    · exact Option.some.inj h ▸ (undefined_performSend _ _ _ _).trans hu'
    · exact Option.some.inj h ▸ (undefined_killConnection _ _).trans hu'
    · exact Option.some.inj h ▸ hu'
    · exact absurd rfl (hdrain _ _ _)
    · exact absurd rfl (hfinish _)
    · split at h
      · exact Option.some.inj h ▸ (handled_reply _ _ _ s).undefined.trans hu'
      · exact absurd h (by simp)
    · exact absurd h (by simp)

theorem step_finish {lib : Library PS CP CR} {now : Nat} : s.step lib (.finish now) = some t ↔
    (s.undefined = false ∧ s.phase = .draining ∧ s.respQueue = [] ∧ s.customRespQueue = []) ∧
      t = { s.cleanUpDeadConnections now with phase := .idle } := by
  unfold step
  cases hu : s.undefined with
  | true => simp
  | false =>
      cases hphase : s.phase with
      | draining =>
          dsimp only
          by_cases hnil : s.respQueue = [] ∧ s.customRespQueue = []
          · simp [hnil, eq_comm]
          · simp only [Bool.false_eq_true, if_false, hnil]
            simp
      | idle => simp
      | events rest => simp
      | deadlocked => simp

/-- A draining step that is not defined is taken. -/
theorem step_of_misremoves {lib : Library PS CP CR} {r : SendResult} {now : Nat} {o : HandlerOutcome}
    (h : s.Misremoves lib (.drain r now o)) : ∃ t, s.step lib (.drain r now o) = some t := by
  obtain ⟨hu, hphase, i, q, hfront, -⟩ := h
  exact exists_step_drain lib hu hphase hfront r now o

theorem removesWell_idle_iff {now : Nat} : s.RemovesWell (.finish now) { u with phase := .idle } ↔
    u.undefined = false ∧ ∀ sock : Nat, u.readingConnections[sock]? =
      (s.readingConnections[sock]?).filter (fun i => (s.conn i).notDead now) := by
  constructor
  · exact fun h => ⟨h.defined, h.cleanUp now rfl⟩
  · rintro ⟨hdefined, hfilter⟩
    refine ⟨hdefined, ?_⟩
    rintro now' ⟨⟩
    exact hfilter

/-- **A step removes well exactly unless `Misremoves` says otherwise.** -/
theorem step_removesWell_iff {lib : Library PS CP CR} {input : Input} :
    (∀ t, s.step lib input = some t → s.RemovesWell input t) ↔ ¬ s.Misremoves lib input := by
  by_cases hdrain : ∃ r now o, input = .drain r now o
  · obtain ⟨r, now, o, rfl⟩ := hdrain
    constructor
    · intro h hmis
      obtain ⟨t, ht⟩ := step_of_misremoves hmis
      exact absurd ((h t ht).defined.symm.trans ((drain_undefined_iff ht).mpr hmis)) (by simp)
    · intro hmis t ht
      refine ⟨?_, fun _ hnow => by simp at hnow⟩
      by_contra hu
      exact hmis ((drain_undefined_iff ht).mp (by simpa using hu))
  by_cases hfinish : ∃ now, input = .finish now
  · obtain ⟨now, rfl⟩ := hfinish
    constructor
    · rintro h ⟨hu, hphase, hresp, hcustom, sock, i, ht, hdead⟩
      have hwell := h _ (step_finish.mpr ⟨⟨hu, hphase, hresp, hcustom⟩, rfl⟩)
      have halive := (cleanUp_removes_iff now s hu).mp (removesWell_idle_iff.mp hwell) sock i ht
      exact absurd (hdead.symm.trans halive) (by simp)
    · intro hmis t ht
      obtain ⟨⟨hu, hphase, hresp, hcustom⟩, rfl⟩ := step_finish.mp ht
      refine removesWell_idle_iff.mpr ((cleanUp_removes_iff now s hu).mpr ?_)
      intro sock i hi
      by_contra hdead
      exact hmis ⟨hu, hphase, hresp, hcustom, sock, i, hi, by simpa using hdead⟩
  · have hnot : ¬ s.Misremoves lib input := by
      intro h
      cases input with
      | drain r now o => exact hdrain ⟨r, now, o, rfl⟩
      | finish now => exact hfinish ⟨now, rfl⟩
      | _ => exact h
    refine iff_of_true (fun t ht => ⟨?_, fun now hnow => absurd ⟨now, hnow⟩ hfinish⟩) hnot
    exact step_defined ht (fun r now o h => hdrain ⟨r, now, o, h⟩) (fun now h => hfinish ⟨now, h⟩)

end Server

namespace Program

/-- The same, of a step of a program. -/
def Misremoves (lib : Library PS CP CR) (p : Program PS CP CR) : Input → Prop
  | .loop input => p.server.Misremoves lib input
  | _ => False

/-- The same, of a step of a program: only the loop removes connections. -/
def RemovesWell (p : Program PS CP CR) (input : Input) (p' : Program PS CP CR) : Prop :=
  match input with
  | .loop input => p.server.RemovesWell input p'.server
  | _ => True

/-- A program that only removes well stays defined. -/
theorem RemovesWell.defined {lib : Library PS CP CR} {p p' : Program PS CP CR} {input : Input}
    (h : p.RemovesWell input p') (hstep : p.step lib input = some p') (hp : p.server.undefined = false) :
    p'.server.undefined = false := by
  rcases step_cases hstep with ⟨loop, t, rfl, -, -, rfl⟩ | ⟨i, k, r, rfl, -, -, -, rfl⟩ |
    ⟨i, k, resp, rfl, -, -, rfl⟩ | ⟨i, n, -, -, rfl⟩
  · exact Server.RemovesWell.defined h
  · exact (Server.handled_reply i k r p.server).undefined.trans hp
  · exact hp
  · exact hp

theorem step_removesWell_iff {lib : Library PS CP CR} (p : Program PS CP CR) (input : Input) :
    (∀ p', p.step lib input = some p' → p.RemovesWell input p') ↔ ¬ p.Misremoves lib input := by
  cases input with
  | loop input =>
      show _ ↔ ¬ p.server.Misremoves lib input
      rw [← Server.step_removesWell_iff]
      constructor
      · intro h t ht
        by_cases hadmissible : p.Admissible input
        · exact h (p.advance t) (by rw [step, if_pos hadmissible, ht]; rfl)
        -- what is not admissible is neither a drain nor a clean-up
        · refine Server.step_removesWell_iff.mpr ?_ t ht
          intro hmis
          cases input with
          | drain r now o => exact hadmissible True.intro
          | finish now => exact hadmissible True.intro
          | _ => exact hmis
      · intro h p' hp'
        rcases step_cases hp' with ⟨loop, t, hloop, -, ht, rfl⟩ | ⟨i, k, r, hloop, -⟩ | ⟨i, k, resp, hloop, -⟩ |
          ⟨i, n, hloop | hloop, -⟩
        · exact h t (Input.loop.inj hloop ▸ ht)
        all_goals exact absurd hloop (by simp)
  | _ => exact iff_of_true (fun _ _ => True.intro) id

/-- **When removals from the table are well defined.** In every run of the program, every step erases only
    entries that are there and advances no erased iterator, and every clean-up removes exactly the dead
    connections, exactly if no reply is drained that leaves a connection dead which is not in the table any
    more, and no clean-up meets a dead connection. -/
theorem removals_well_defined_iff (lib : Library PS CP CR) (listenSock : Nat) (inputs : List Input) :
    Along (step lib) (fun p input => ∀ p', p.step lib input = some p' → p.RemovesWell input p')
        (init lib listenSock) inputs ↔
      Along (step lib) (fun p input => ¬ p.Misremoves lib input) (init lib listenSock) inputs :=
  along_congr step_removesWell_iff

/-- A connection is accepted, and nothing happens on it for ten seconds. -/
def agedOut : List Input :=
  [.loop (.poll [.accept]), .loop (.accept [5] 0), .loop .lock, .loop (.finish 0),
    .loop (.poll []), .loop .lock, .loop (.finish 10)]

theorem agedOut_undefined : ((init HttpConnection.oneGetLibrary 3).run HttpConnection.oneGetLibrary
    agedOut).map (fun p => p.server.undefined) = some true := by decide +kernel

/-- The clean-up advances an iterator to an erased entry. -/
theorem agedOut_misremoved : ¬ Along (step HttpConnection.oneGetLibrary)
    (fun p input => ∀ p', p.step HttpConnection.oneGetLibrary input = some p' → p.RemovesWell input p')
    (init HttpConnection.oneGetLibrary 3) agedOut := by
  intro h
  obtain ⟨p, hp, hundefined⟩ := Option.map_eq_some_iff.mp agedOut_undefined
  have hdefined : p.server.undefined = false :=
    h.invariant (fun p => p.server.undefined = false) (fun hp hwell hstep => (hwell _ hstep).defined hstep hp)
      rfl hp
  exact absurd (hdefined.symm.trans hundefined) (by simp)

end Program

end HttpServer
end Hiaux
