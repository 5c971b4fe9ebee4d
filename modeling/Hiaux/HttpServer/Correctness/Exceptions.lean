import Hiaux.HttpServer.Correctness.Reuse
import Hiaux.Lib.Fifo

/-!
# `HttpServer.Correctness.Exceptions` — replies and handlers that throw

A reply is added to its connection while it is still at the front of its queue, and the connection's next
request is dispatched before it is popped. An exception of that handler leaves the loops: the reply stays in
its queue, and the next round adds it again. A ledger beside the program numbers the replies as they are
queued and says which have been added (`Ledger`). Every reply is added exactly once exactly if no round goes
back to a queue that it has left through an exception (`replies_added_once_iff`).
-/

namespace Hiaux
namespace HttpServer

open Lib Network Server

variable {PS CP CR : Type}

namespace Server

variable {lib : Library PS CP CR} {s t : Server PS CP CR} {i : Nat} {q : Reply}

/-! ## How a round of draining ends -/

/-- Whether the reply is popped after it was added, or a handler throws, or the loop stops. -/
def drainExit (lib : Library PS CP CR) (i : Nat) (q : Reply) (r : SendResult) (now : Nat)
    (o : HandlerOutcome) (s : Server PS CP CR) : Exit :=
  let (s, threw) := (s.addReply lib now i q).handleResponse lib i r now o
  if s.undefined || s.phase = .deadlocked then .stopped
  else if threw then .interrupted
  else .popped

/-- A loop that has stopped makes no further step. -/
def Stopped (s : Server PS CP CR) : Prop := s.undefined = true ∨ s.phase = .deadlocked

/-- What a round of draining leaves of the queues: new entries follow. -/
def Leaves (q : Reply) (exit : Exit) (s t : Server PS CP CR) : Prop :=
  match q with
  | .http _ => exit.remaining s.respQueue <+: t.respQueue ∧ s.customRespQueue <+: t.customRespQueue
  | .custom _ => s.respQueue <+: t.respQueue ∧ exit.remaining s.customRespQueue <+: t.customRespQueue

theorem Routed.isPrefix {ρ : Type} {target : Option Nat} {q q' : List (Queued ρ)} (h : Routed target q q') :
    q <+: q' := by
  obtain ⟨news, heq, -⟩ := h
  exact ⟨news, heq.symm⟩

/-- **A round of draining** leaves the queues without the reply if that was popped. -/
theorem drainOne_leaves (lib : Library PS CP CR) (i : Nat) (q : Reply) (r : SendResult) (now : Nat)
    (o : HandlerOutcome) (s : Server PS CP CR) :
    Leaves q (s.drainExit lib i q r now o) s (s.drainOne lib i q (popReply q) r now o) ∧
      (s.drainExit lib i q r now o = .stopped → (s.drainOne lib i q (popReply q) r now o).Stopped) := by
  have heffect := effect_handleResponse lib i r now o (s.addReply lib now i q)
  obtain ⟨c, bytes, heq, -⟩ := addReply_frame lib now i q s
  have hresp : s.respQueue <+: ((s.addReply lib now i q).handleResponse lib i r now o).1.respQueue := by
    have hadd : (s.addReply lib now i q).respQueue = s.respQueue := by rw [heq]; rfl
    exact hadd ▸ heffect.resp.isPrefix
  have hcustom :
      s.customRespQueue <+: ((s.addReply lib now i q).handleResponse lib i r now o).1.customRespQueue := by
    have hadd : (s.addReply lib now i q).customRespQueue = s.customRespQueue := by rw [heq]; rfl
    exact hadd ▸ heffect.custom.isPrefix
  clear heffect
  unfold drainOne drainExit
  generalize (s.addReply lib now i q).handleResponse lib i r now o = result at hresp hcustom
  obtain ⟨u, threw⟩ := result
  dsimp only at hresp hcustom ⊢
  by_cases hstop : (u.undefined || decide (u.phase = .deadlocked)) = true
  · rw [if_pos hstop, if_pos hstop]
    refine ⟨?_, fun _ => (Bool.or_eq_true_iff.mp hstop).imp id of_decide_eq_true⟩
    cases q <;> exact ⟨hresp, hcustom⟩
  · rw [if_neg hstop, if_neg hstop]
    cases threw with
    | true =>
        refine ⟨?_, fun h => absurd h (by simp)⟩
        cases q <;> exact ⟨hresp, hcustom⟩
    | false =>
        refine ⟨?_, fun h => absurd h (by simp)⟩
        cases q with
        | http resp => exact ⟨Exit.remaining_popped hresp, hcustom⟩
        | custom bytes => exact ⟨hresp, Exit.remaining_popped hcustom⟩

/-- A step that adds no reply only adds to the queues. -/
theorem step_queues {input : Input} (h : s.step lib input = some t)
    (hdrain : ∀ r now o, input ≠ .drain r now o) :
    s.respQueue <+: t.respQueue ∧ s.customRespQueue <+: t.customRespQueue := by
  rcases step_cases h with ⟨phase, heffect⟩ | ⟨socks, now, phase, rfl, rfl⟩ |
    ⟨r, now, o, i, q, rfl, -⟩ | ⟨i, k, r, rfl, rfl⟩
  · exact ⟨heffect.resp.isPrefix, heffect.custom.isPrefix⟩
  · obtain ⟨hresp, hcustom⟩ := queues_performAccept lib socks now { s with phase := phase }
    rw [hresp, hcustom]
    exact ⟨List.prefix_refl _, List.prefix_refl _⟩
  · exact absurd rfl (hdrain r now o)
  · have heffect := (handled_reply i k r s).effect
    exact ⟨heffect.resp.isPrefix, heffect.custom.isPrefix⟩

/-- A loop that has stopped takes no input. -/
theorem step_of_stopped {input : Input} (h : s.step lib input = some t) (hs : s.Stopped) :
    ∃ i k r, input = .answer i k r := by
  unfold step at h
  split at h
  · exact absurd h (by simp)
  · rename_i hu
    have hphase : s.phase = .deadlocked := hs.resolve_left hu
    rw [hphase] at h
    cases input with
    | answer i k r => exact ⟨i, k, r, rfl⟩
    | _ => exact absurd h (by simp)

/-- The record after a round of draining: one reply was added. -/
theorem record_drainOne (lib : Library PS CP CR) (i : Nat) (q : Reply) (r : SendResult) (now : Nat)
    (o : HandlerOutcome) (s : Server PS CP CR) :
    (s.drainOne lib i q (popReply q) r now o).allocated = s.allocated ∧
      ∀ j, ((s.drainOne lib i q (popReply q) r now o).objects j).added.map Prod.fst =
        (s.objects j).added.map Prod.fst ++ if j = i then [q] else [] := by
  obtain ⟨u, heffect, hobj, halloc, -⟩ := drainOne_cases lib i q r now o s
  obtain ⟨c, bytes, heq, -⟩ := addReply_frame lib now i q s
  refine ⟨?_, fun j => ?_⟩
  · rw [halloc, heffect.allocated, heq]
    rfl
  · rw [hobj, heffect.added, heq]
    by_cases hj : j = i
    · rw [hj, objects_modify_self, if_pos rfl, List.map_append]
      rfl
    · rw [objects_modify_of_ne _ hj, if_neg hj, List.append_nil]

/-- What accepting connections does to the record: nothing, and the new connections have none. -/
theorem added_performAccept (lib : Library PS CP CR) (socks : List Nat) (now : Nat) (s : Server PS CP CR)
    (j : Nat) : ((s.performAccept lib socks now).objects j).added = (s.objects j).added ∨
      (s.allocated ≤ j ∧ ((s.performAccept lib socks now).objects j).added = []) := by
  unfold performAccept
  induction socks generalizing s with
  | nil => exact Or.inl rfl
  | cons sock socks ih =>
      have hone : ((s.acceptOne lib now sock).objects j).added = (s.objects j).added ∨
          (s.allocated ≤ j ∧ ((s.acceptOne lib now sock).objects j).added = []) := by
        by_cases hj : j = s.allocated
        · refine Or.inr ⟨Nat.le_of_eq hj.symm, ?_⟩
          rw [hj, objects_acceptOne_self]
        · exact Or.inl (congrArg Object.added (objects_acceptOne_of_ne lib now sock hj))
      rcases ih (s.acceptOne lib now sock) with heq | ⟨hj, hnil⟩
      · exact hone.imp heq.trans (fun h => ⟨h.1, heq.trans h.2⟩)
      · exact Or.inr ⟨Nat.le_of_succ_le hj, hnil⟩

theorem allocated_performAccept (lib : Library PS CP CR) (socks : List Nat) (now : Nat)
    (s : Server PS CP CR) : s.allocated ≤ (s.performAccept lib socks now).allocated := by
  unfold performAccept
  induction socks generalizing s with
  | nil => exact Nat.le_refl _
  | cons sock socks ih => exact Nat.le_of_succ_le (ih (s.acceptOne lib now sock))

end Server

namespace Program

variable {lib : Library PS CP CR} {p p' : Program PS CP CR} {input : Input}

theorem step_queues (h : p.step lib input = some p') (hdrain : ∀ r now o, input ≠ .loop (.drain r now o)) :
    p.server.respQueue <+: p'.server.respQueue ∧ p.server.customRespQueue <+: p'.server.customRespQueue := by
  rcases step_cases h with ⟨loop, t, rfl, -, ht, rfl⟩ | ⟨i, k, r, rfl, -, -, -, rfl⟩ |
    ⟨i, k, resp, rfl, -, -, rfl⟩ | ⟨i, n, -, -, rfl⟩
  · exact Server.step_queues ht (fun r now o heq => hdrain r now o (congrArg Input.loop heq))
  · have heffect := (handled_reply i k r p.server).effect
    exact ⟨heffect.resp.isPrefix, heffect.custom.isPrefix⟩
  · exact ⟨List.prefix_append _ _, List.prefix_refl _⟩
  · exact ⟨List.prefix_refl _, List.prefix_refl _⟩

/-- A loop that has stopped does not go on. -/
theorem stopped_of_step (h : p.step lib input = some p') (hp : p.server.Stopped) : p'.server.Stopped := by
  rcases step_cases h with ⟨loop, t, rfl, hadmissible, ht, rfl⟩ | ⟨i, k, r, rfl, -, hu, -, rfl⟩ |
    ⟨i, k, resp, rfl, -, -, rfl⟩ | ⟨i, n, -, -, rfl⟩
  · obtain ⟨i, k, r, rfl⟩ := step_of_stopped ht hp
    exact hadmissible.elim
  · have hphase : p.server.phase = .deadlocked := hp.resolve_left (by simp [hu])
    refine Or.inr ?_
    show (p.server.reply i k r).phase = .deadlocked
    rw [phase_reply, if_neg (by simp [hphase])]
    exact hphase
  · exact hp
  · exact hp

/-- What a step without draining does to the record. -/
theorem added_step (h : p.step lib input = some p')
    (hdrain : ∀ r now o, input ≠ .loop (.drain r now o)) :
    p.server.allocated ≤ p'.server.allocated ∧
      ∀ j, (p'.server.objects j).added = (p.server.objects j).added ∨
        (p.server.allocated ≤ j ∧ (p'.server.objects j).added = []) := by
  rcases step_cases h with ⟨loop, t, rfl, -, ht, rfl⟩ | ⟨i, k, r, rfl, -, -, -, rfl⟩ |
    ⟨i, k, resp, rfl, -, -, rfl⟩ | ⟨i, n, -, -, rfl⟩
  · rcases Server.step_cases ht with ⟨phase, heffect⟩ | ⟨socks, now, phase, rfl, rfl⟩ |
      ⟨r, now, o, i, q, rfl, -⟩ | ⟨i, k, r, rfl, rfl⟩
    · exact ⟨Nat.le_of_eq heffect.allocated.symm, fun j => Or.inl (heffect.added j)⟩
    · exact ⟨allocated_performAccept lib socks now { p.server with phase := phase },
        added_performAccept lib socks now { p.server with phase := phase }⟩
    · exact absurd rfl (hdrain r now o)
    · have heffect := (handled_reply i k r p.server).effect
      exact ⟨Nat.le_of_eq heffect.allocated.symm, fun j => Or.inl (heffect.added j)⟩
  · have heffect := (handled_reply i k r p.server).effect
    exact ⟨Nat.le_of_eq heffect.allocated.symm, fun j => Or.inl (heffect.added j)⟩
  · exact ⟨Nat.le_refl _, fun _ => Or.inl rfl⟩
  · exact ⟨Nat.le_refl _, fun _ => Or.inl rfl⟩

end Program

/-! ## The ledger -/

/-- A program and the histories of its response queues. -/
structure Ledger (PS CP CR : Type) where
  program : Program PS CP CR
  responses : Fifo (Queued HttpResponse)
  customs : Fifo (Queued Bytes)

namespace Ledger

variable {lib : Library PS CP CR} {l l' : Ledger PS CP CR}

def init (lib : Library PS CP CR) (listenSock : Nat) : Ledger PS CP CR :=
  ⟨.init lib listenSock, .empty, .empty⟩

/-- The reply that a round of draining adds is processed, first those of `m_resp_queue`. -/
def drain (lib : Library PS CP CR) (r : SendResult) (now : Nat) (o : HandlerOutcome)
    (l : Ledger PS CP CR) : Ledger PS CP CR :=
  let s := l.program.server
  match s.respQueue, s.customRespQueue with
  | x :: _, _ =>
      { l with responses := l.responses.process (s.drainExit lib x.conn (.http x.resp) r now o) }
  | [], x :: _ =>
      { l with customs := l.customs.process (s.drainExit lib x.conn (.custom x.resp) r now o) }
  | [], [] => l

/-- The queues are extended by what a step has added to them. -/
def extend (p : Program PS CP CR) (l : Ledger PS CP CR) : Ledger PS CP CR :=
  ⟨p, l.responses.extend p.server.respQueue, l.customs.extend p.server.customRespQueue⟩

/-- What a step processes. -/
def taken (lib : Library PS CP CR) (l : Ledger PS CP CR) : Program.Input → Ledger PS CP CR
  | .loop (.drain r now o) => l.drain lib r now o
  | _ => l

/-- One step of the program; `none` when the input does not fit. -/
def step (lib : Library PS CP CR) (l : Ledger PS CP CR) (input : Program.Input) :
    Option (Ledger PS CP CR) :=
  (l.program.step lib input).map (fun p => (l.taken lib input).extend p)

/-- Every reply queued is added once: at most once, and once when its queue has been drained. -/
def AddedOnce (l : Ledger PS CP CR) : Prop := l.responses.ExactlyOnce ∧ l.customs.ExactlyOnce

/-- A round that goes back to a queue that it has left through an exception. -/
def Resumed (l : Ledger PS CP CR) : Program.Input → Prop
  | .loop (.drain _ _ _) =>
      l.program.server.undefined = false ∧ l.program.server.phase = .draining ∧
        match l.program.server.respQueue, l.program.server.customRespQueue with
        | _ :: _, _ => l.responses.last = .interrupted
        | [], _ :: _ => l.customs.last = .interrupted
        | [], [] => False
  | _ => False

/-- What every step keeps: the ledger has the queues, and a queue that a loop has stopped at stays. -/
structure Balanced (l : Ledger PS CP CR) : Prop where
  responses : l.responses.Sound
  customs : l.customs.Sound
  respQueue : l.responses.queue = l.program.server.respQueue
  customQueue : l.customs.queue = l.program.server.customRespQueue
  stopped : l.responses.last = .stopped ∨ l.customs.last = .stopped → l.program.server.Stopped

theorem Balanced.init (lib : Library PS CP CR) (listenSock : Nat) : Balanced (init lib listenSock) where
  responses := .empty
  customs := .empty
  respQueue := rfl
  customQueue := rfl
  stopped := fun h => by simp [Ledger.init, Fifo.empty] at h

theorem addedOnce_init (lib : Library PS CP CR) (listenSock : Nat) : AddedOnce (init lib listenSock) :=
  ⟨Fifo.exactlyOnce_empty, Fifo.exactlyOnce_empty⟩

/-- Which queue a round of draining takes a reply from. -/
theorem drain_cases (lib : Library PS CP CR) {i : Nat} {q : Reply}
    (hfront : l.program.server.front = some (i, q)) (r : SendResult) (now : Nat) (o : HandlerOutcome) :
    (∃ x rest, l.program.server.respQueue = x :: rest ∧ x.conn = i ∧ q = .http x.resp ∧
      l.drain lib r now o =
        { l with responses := l.responses.process (l.program.server.drainExit lib i q r now o) }) ∨
    ∃ x rest, l.program.server.respQueue = [] ∧ l.program.server.customRespQueue = x :: rest ∧
      x.conn = i ∧ q = .custom x.resp ∧ l.drain lib r now o =
        { l with customs := l.customs.process (l.program.server.drainExit lib i q r now o) } := by
  rcases front_cases hfront with ⟨x, rest, hx, rfl, rfl⟩ | ⟨x, rest, hnil, hx, rfl, rfl⟩
  · exact Or.inl ⟨x, rest, hx, rfl, rfl, by simp [drain, hx]⟩
  · exact Or.inr ⟨x, rest, hnil, hx, rfl, rfl, by simp [drain, hnil, hx]⟩

/-- **What a step of the ledger can do**: new entries, or a round of draining before them. -/
theorem step_cases {input : Program.Input} (h : l.step lib input = some l') :
    (∃ p, (∀ r now o, input ≠ .loop (.drain r now o)) ∧ l.program.step lib input = some p ∧
      l' = l.extend p) ∨
    ∃ r now o i q p, input = .loop (.drain r now o) ∧ l.program.server.undefined = false ∧
      l.program.server.phase = .draining ∧ l.program.server.front = some (i, q) ∧
      p.server = l.program.server.drainOne lib i q (popReply q) r now o ∧
      l' = (l.drain lib r now o).extend p := by
  obtain ⟨p, hp, rfl⟩ := Option.map_eq_some_iff.mp h
  unfold taken
  split
  · rename_i r now o
    obtain ⟨t, ht, rfl⟩ := Option.map_eq_some_iff.mp hp
    obtain ⟨hu, hphase, i, q, hfront, rfl⟩ := step_drain ht
    exact Or.inr ⟨r, now, o, i, q, _, rfl, hu, hphase, hfront, rfl, rfl⟩
  · rename_i hdrain
    exact Or.inl ⟨p, hdrain, hp, rfl⟩

/-- The histories after a round of draining: what is left of the queues. -/
theorem Balanced.drain (h : Balanced l) (lib : Library PS CP CR) {i : Nat} {q : Reply}
    (hfront : l.program.server.front = some (i, q)) (r : SendResult) (now : Nat) (o : HandlerOutcome) :
    (l.drain lib r now o).responses.Sound ∧ (l.drain lib r now o).customs.Sound ∧
      (l.drain lib r now o).responses.queue <+:
        (l.program.server.drainOne lib i q (popReply q) r now o).respQueue ∧
      (l.drain lib r now o).customs.queue <+:
        (l.program.server.drainOne lib i q (popReply q) r now o).customRespQueue := by
  obtain ⟨hleaves, -⟩ := drainOne_leaves lib i q r now o l.program.server
  rcases drain_cases lib hfront r now o with ⟨x, rest, hx, -, rfl, heq⟩ | ⟨x, rest, -, hx, -, rfl, heq⟩
  · rw [heq]
    have hne : l.responses.queue ≠ [] := by rw [h.respQueue, hx]; simp
    refine ⟨h.responses.process hne _, h.customs, ?_, ?_⟩
    · rw [Fifo.queue_process, h.respQueue]
      exact hleaves.1
    · rw [h.customQueue]
      exact hleaves.2
  · rw [heq]
    have hne : l.customs.queue ≠ [] := by rw [h.customQueue, hx]; simp
    refine ⟨h.responses, h.customs.process hne _, ?_, ?_⟩
    · rw [h.respQueue]
      exact hleaves.1
    · rw [Fifo.queue_process, h.customQueue]
      exact hleaves.2

/-- A round of draining that stops in a queue. -/
theorem Balanced.drain_stopped (h : Balanced l) (hl : ¬ l.program.server.Stopped) {i : Nat} {q : Reply}
    (hfront : l.program.server.front = some (i, q)) {r : SendResult} {now : Nat} {o : HandlerOutcome}
    (hstop : (l.drain lib r now o).responses.last = .stopped ∨ (l.drain lib r now o).customs.last = .stopped) :
    (l.program.server.drainOne lib i q (popReply q) r now o).Stopped := by
  obtain ⟨-, hexit⟩ := drainOne_leaves lib i q r now o l.program.server
  rcases drain_cases lib hfront r now o with ⟨x, rest, -, -, -, heq⟩ | ⟨x, rest, -, -, -, -, heq⟩
  · rw [heq] at hstop
    exact hstop.elim hexit (fun hlast => absurd (h.stopped (Or.inr hlast)) hl)
  · rw [heq] at hstop
    exact hstop.elim (fun hlast => absurd (h.stopped (Or.inl hlast)) hl) hexit

/-- **Every step keeps the balance.** -/
theorem Balanced.step {input : Program.Input} (h : Balanced l) (hstep : l.step lib input = some l') :
    Balanced l' := by
  rcases step_cases hstep with ⟨p, hdrain, hp, rfl⟩ | ⟨r, now, o, i, q, p, -, hu, hphase, hfront, hp, rfl⟩
  · obtain ⟨hresp, hcustom⟩ := Program.step_queues hp hdrain
    exact ⟨h.responses.extend _, h.customs.extend _,
      Fifo.queue_extend h.responses (h.respQueue ▸ hresp),
      Fifo.queue_extend h.customs (h.customQueue ▸ hcustom),
      fun hlast => Program.stopped_of_step hp (h.stopped hlast)⟩
  · obtain ⟨hresponses, hcustoms, hresp, hcustom⟩ := h.drain lib hfront r now o
    rw [← hp] at hresp hcustom
    have hruns : ¬ l.program.server.Stopped := by simp [Stopped, hu, hphase]
    refine ⟨hresponses.extend _, hcustoms.extend _, Fifo.queue_extend hresponses hresp,
      Fifo.queue_extend hcustoms hcustom, fun hlast => ?_⟩
    show p.server.Stopped
    rw [hp]
    exact h.drain_stopped hruns hfront hlast

/-! ## What the ledger lists is what the connections were given -/

/-- The runs of the ledger are those of the program. -/
theorem program_run (lib : Library PS CP CR) (l : Ledger PS CP CR) (inputs : List Program.Input) :
    l.program.run lib inputs = (Lib.run (step lib) l inputs).map program := by
  refine run_map program (fun l input => ?_) l inputs
  unfold step
  rw [Option.map_map]
  exact Option.map_id'.symm

/-- The replies processed for a connection. -/
def processedFor (l : Ledger PS CP CR) (i : Nat) : List Reply :=
  (l.responses.entries.filter (fun x => x.conn = i)).map (fun x => .http x.resp) ++
    (l.customs.entries.filter (fun x => x.conn = i)).map (fun x => .custom x.resp)

/-- The replies added to a connection are those processed for it. -/
structure Recorded (l : Ledger PS CP CR) : Prop where
  balanced : Balanced l
  distinct : l.program.Distinct
  accepted : ∀ i, l.program.server.allocated ≤ i → l.processedFor i = []
  added : ∀ i, ((l.program.server.objects i).added.map Prod.fst).Perm (l.processedFor i)

theorem processedFor_extend (hresp : l.responses.Sound) (hcustom : l.customs.Sound)
    (p : Program PS CP CR) (i : Nat) : (l.extend p).processedFor i = l.processedFor i := by
  unfold processedFor
  rw [extend, Fifo.extend, Fifo.entries_push hresp, Fifo.extend, Fifo.entries_push hcustom]

/-- A round of draining processes one reply. -/
theorem Balanced.processedFor_drain (h : Balanced l) (lib : Library PS CP CR) {i : Nat} {q : Reply}
    (hfront : l.program.server.front = some (i, q)) (r : SendResult) (now : Nat) (o : HandlerOutcome)
    (j : Nat) : ((l.drain lib r now o).processedFor j).Perm
      (l.processedFor j ++ if j = i then [q] else []) := by
  have hone : ∀ {ρ : Type} (x : Queued ρ) (f : Queued ρ → Reply), x.conn = i → q = f x →
      ([x].filter (fun x => x.conn = j)).map f = if j = i then [q] else [] := by
    rintro ρ x f rfl rfl
    by_cases hj : j = x.conn
    · simp [hj]
    · rw [if_neg hj, List.filter_cons_of_neg (by simpa using fun h => hj h.symm)]
      rfl
  unfold processedFor
  rcases drain_cases lib hfront r now o with ⟨x, rest, hx, hi, hq, heq⟩ | ⟨x, rest, -, hx, hi, hq, heq⟩
  · rw [heq]
    dsimp only
    rw [Fifo.entries_process (h.respQueue.trans hx), List.filter_append, List.map_append,
      hone x (fun x => .http x.resp) hi hq, List.append_assoc, List.append_assoc]
    exact List.perm_append_comm.append_left _
  · rw [heq]
    dsimp only
    rw [Fifo.entries_process (h.customQueue.trans hx), List.filter_append, List.map_append,
      hone x (fun x => .custom x.resp) hi hq, List.append_assoc]

theorem Recorded.init (lib : Library PS CP CR) (listenSock : Nat) : Recorded (init lib listenSock) where
  balanced := .init lib listenSock
  distinct := .init lib listenSock
  accepted := fun _ _ => rfl
  added := fun _ => .refl _

/-- **Every step adds to the connections what the ledger lists.** -/
theorem Recorded.step {input : Program.Input} (h : Recorded l) (hstep : l.step lib input = some l') :
    Recorded l' := by
  have hbalanced := h.balanced.step hstep
  have hdistinct : l'.program.Distinct := by
    obtain ⟨p, hp, rfl⟩ := Option.map_eq_some_iff.mp hstep
    exact h.distinct.step hp
  rcases step_cases hstep with ⟨p, hdrain, hp, rfl⟩ | ⟨r, now, o, i, q, p, -, hu, hphase, hfront, hp, rfl⟩
  · have hsame := processedFor_extend h.balanced.responses h.balanced.customs p
    obtain ⟨hle, hadded⟩ := Program.added_step hp hdrain
    refine ⟨hbalanced, hdistinct, fun j hj => ?_, fun j => ?_⟩
    · rw [hsame]
      exact h.accepted j (hle.trans hj)
    · rw [hsame]
      show ((p.server.objects j).added.map Prod.fst).Perm _
      rcases hadded j with heq | ⟨hj, hnil⟩
      · rw [heq]
        exact h.added j
      · rw [hnil, h.accepted j hj]
        exact .refl _
  · obtain ⟨hresp, hcustom, -⟩ := h.balanced.drain lib hfront r now o
    have hsame := processedFor_extend hresp hcustom p
    have hprocessed := h.balanced.processedFor_drain lib hfront r now o
    obtain ⟨halloc, hadded⟩ := record_drainOne lib i q r now o l.program.server
    refine ⟨hbalanced, hdistinct, fun j hj => ?_, fun j => ?_⟩
    · have hj' : l.program.server.allocated ≤ j := by
        rw [← halloc, ← hp]
        exact hj
      have hne : j ≠ i := by
        rintro rfl
        exact absurd (h.distinct.accepted (Program.open_of_front hfront)) (Nat.not_lt_of_le hj')
      rw [hsame, List.perm_nil.mp ((hprocessed j).trans ?_)]
      rw [h.accepted j hj', if_neg hne]
      exact .refl _
    · rw [hsame]
      show ((p.server.objects j).added.map Prod.fst).Perm _
      rw [hp, hadded]
      exact ((h.added j).append_right _).trans (hprocessed j).symm

/-- **In every run**, the replies added to a connection are the entries processed for it. -/
theorem added_eq_processed (lib : Library PS CP CR) (listenSock : Nat) {inputs : List Program.Input}
    (hrun : Lib.run (step lib) (init lib listenSock) inputs = some l) (i : Nat) :
    ((l.program.server.objects i).added.map Prod.fst).Perm (l.processedFor i) :=
  (run_invariant Recorded Recorded.step (Recorded.init lib listenSock) hrun).added i

/-! ## Added once -/

/-- **A round of draining** keeps the law exactly if it does not go back to a queue that was left through an
    exception. -/
theorem Balanced.drain_addedOnce_iff (h : Balanced l) (honce : l.AddedOnce)
    (hu : l.program.server.undefined = false) (hphase : l.program.server.phase = .draining) {i : Nat}
    {q : Reply} (hfront : l.program.server.front = some (i, q)) (r : SendResult) (now : Nat)
    (o : HandlerOutcome) :
    (l.drain lib r now o).AddedOnce ↔ ¬ l.Resumed (.loop (.drain r now o)) := by
  have hruns : ¬ l.program.server.Stopped := by simp [Stopped, hu, hphase]
  have hlast : ∀ {exit : Exit}, (exit = .stopped → l.program.server.Stopped) →
      (exit = .popped ↔ ¬ exit = .interrupted) := by
    intro exit hexit
    cases exit with
    | popped => simp
    | interrupted => simp
    | stopped => exact absurd (hexit rfl) hruns
  rcases drain_cases lib hfront r now o with ⟨x, rest, hx, -, -, heq⟩ | ⟨x, rest, hnil, hx, -, -, heq⟩
  · have hne : l.responses.queue ≠ [] := by rw [h.respQueue, hx]; simp
    have hresumed : l.Resumed (.loop (.drain r now o)) ↔ l.responses.last = .interrupted := by
      simp [Resumed, hu, hphase, hx]
    rw [heq, hresumed, ← hlast (fun hstop => h.stopped (Or.inl hstop)),
      ← Fifo.exactlyOnce_process_iff h.responses hne honce.1]
    exact and_iff_left honce.2
  · have hne : l.customs.queue ≠ [] := by rw [h.customQueue, hx]; simp
    have hresumed : l.Resumed (.loop (.drain r now o)) ↔ l.customs.last = .interrupted := by
      simp [Resumed, hu, hphase, hnil, hx]
    rw [heq, hresumed, ← hlast (fun hstop => h.stopped (Or.inr hstop)),
      ← Fifo.exactlyOnce_process_iff h.customs hne honce.2]
    exact and_iff_right honce.1

theorem addedOnce_extend_iff (hresp : l.responses.Sound) (hcustom : l.customs.Sound)
    (p : Program PS CP CR) : (l.extend p).AddedOnce ↔ l.AddedOnce :=
  and_congr (Fifo.exactlyOnce_extend_iff hresp _) (Fifo.exactlyOnce_extend_iff hcustom _)

/-- A round that goes back to a queue is taken. -/
theorem step_of_resumed (lib : Library PS CP CR) {r : SendResult} {now : Nat} {o : HandlerOutcome}
    (h : l.Resumed (.loop (.drain r now o))) :
    ∃ l', l.step lib (.loop (.drain r now o)) = some l' := by
  obtain ⟨hu, hphase, hlast⟩ := h
  have hfront : ∃ i q, l.program.server.front = some (i, q) := by
    split at hlast
    · rename_i hresp
      exact ⟨_, _, front_http hresp⟩
    · rename_i hresp hcustom
      exact ⟨_, _, front_custom hresp hcustom⟩
    · exact hlast.elim
  obtain ⟨i, q, hx⟩ := hfront
  obtain ⟨t, ht⟩ := exists_step_drain lib hu hphase hx r now o
  have hp : l.program.step lib (.loop (.drain r now o)) = some (l.program.advance t) := by
    simp [Program.step, Program.Admissible, ht]
  exact ⟨(l.drain lib r now o).extend (l.program.advance t), by rw [step, hp]; rfl⟩

/-- **A step keeps the law exactly if it does not go back to a queue that was left through an exception.** -/
theorem step_addedOnce_iff {input : Program.Input} (h : Balanced l) (honce : l.AddedOnce) :
    (∀ l', l.step lib input = some l' → l'.AddedOnce) ↔ ¬ l.Resumed input := by
  constructor
  · intro hall hresumed
    have hdrain : ∃ r now o, input = .loop (.drain r now o) := by
      unfold Resumed at hresumed
      split at hresumed
      · exact ⟨_, _, _, rfl⟩
      · exact hresumed.elim
    obtain ⟨r, now, o, rfl⟩ := hdrain
    obtain ⟨l', hl'⟩ := step_of_resumed lib hresumed
    have hnext := hall l' hl'
    rcases step_cases hl' with ⟨-, hnot, -⟩ | ⟨r', now', o', i, q, p, heq, hu, hphase, hfront, -, rfl⟩
    · exact hnot r now o rfl
    · obtain ⟨rfl, rfl, rfl⟩ : r = r' ∧ now = now' ∧ o = o' := by simpa using heq
      obtain ⟨hresp, hcustom, -⟩ := h.drain lib hfront r now o
      rw [addedOnce_extend_iff hresp hcustom, h.drain_addedOnce_iff honce hu hphase hfront] at hnext
      exact hnext hresumed
  · intro hresumed l' hl'
    rcases step_cases hl' with ⟨p, -, -, rfl⟩ | ⟨r, now, o, i, q, p, rfl, hu, hphase, hfront, -, rfl⟩
    · exact (addedOnce_extend_iff h.responses h.customs p).mpr honce
    · obtain ⟨hresp, hcustom, -⟩ := h.drain lib hfront r now o
      rw [addedOnce_extend_iff hresp hcustom, h.drain_addedOnce_iff honce hu hphase hfront]
      exact hresumed

/-- **When every queued reply is added exactly once.** In every run of the program, whatever the handlers
    throw: in all its states every reply pushed on a response queue has been added to its connection at most
    once, and once when its queue is empty, exactly if no round of draining goes back to a queue that an
    exception of a handler has made it leave. -/
theorem replies_added_once_iff (lib : Library PS CP CR) (listenSock : Nat) (inputs : List Program.Input) :
    Always (step lib) AddedOnce (init lib listenSock) inputs ↔
      Along (step lib) (fun l input => ¬ l.Resumed input) (init lib listenSock) inputs :=
  always_iff_along_of_invariant Balanced (fun h hstep => h.step hstep)
    (fun h honce => step_addedOnce_iff h honce) (Balanced.init lib listenSock) (addedOnce_init lib listenSock)

/-- Two requests arrive on a connection while the handler has not answered the first. It answers; the answer
    is added, and the handler throws on the second request. -/
def thrownWhileAdding : List Program.Input :=
  [.loop (.poll [.accept]), .loop (.accept [5] 0), .loop .lock, .loop (.finish 0),
    .loop (.poll [.read 5]), .loop (.read [.data HttpConnection.oneGet, .again] 0 ⟨[], false⟩),
    .loop .lock, .loop (.finish 0),
    .loop (.poll [.read 5]), .loop (.read [.data HttpConnection.oneGet, .again] 0 ⟨[], false⟩),
    .reply 0 0 (.http ⟨200, ascii "one", []⟩), .loop .lock, .loop (.drain (.accepted 1000) 0 ⟨[], true⟩),
    .loop (.poll []), .loop .lock, .loop (.drain (.accepted 1000) 0 ⟨[], false⟩)]

theorem thrownWhileAdding_processed : (Lib.run (step HttpConnection.oneGetLibrary)
    (init HttpConnection.oneGetLibrary 3) thrownWhileAdding).map (fun l => l.responses.processed) =
      some [0, 0] := by decide +kernel

/-- The answer is added twice. -/
theorem thrownWhileAdding_added_twice : ¬ Always (step HttpConnection.oneGetLibrary) AddedOnce
    (init HttpConnection.oneGetLibrary 3) thrownWhileAdding := by
  intro h
  obtain ⟨l, hl, hprocessed⟩ := Option.map_eq_some_iff.mp thrownWhileAdding_processed
  have honce : l.AddedOnce := h thrownWhileAdding l (List.prefix_refl _) hl
  have hnodup : [0, 0].Nodup := hprocessed ▸ honce.1.1
  exact absurd hnodup (by simp)

end Ledger

end HttpServer
end Hiaux
