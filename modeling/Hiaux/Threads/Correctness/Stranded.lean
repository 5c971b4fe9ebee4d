import Hiaux.Threads.Correctness.Waking

/-!
# `Threads.Correctness.Stranded` — a task in the shared queue

A pool thread looks at the shared queue, and lists itself in `waiting_threads`, in two critical sections;
`hThreadPool::addTask` looks at the list, and puts the task into the shared queue, in two others. A task put
there is executed if some thread will still look at the shared queue before it lists itself (`Looks`): then
one will as long as the queue is not empty, since a thread stops looking only when it finds the queue empty,
and a thread that is taken off the list looks again. If the last look of every thread falls before the task
is put into the queue, and the caller looked at the list before any thread was on it, the task stays there
while every thread sleeps (`missedTask_stranded`).
-/

namespace Hiaux
namespace Threads

/-- A task passed to `addTask`. -/
def Task.isUser : Task → Bool
  | .user _ => true
  | .kill _ => false

/-- Not at the end of `hThread::run`, and not executing a task of `kill`. -/
def RunPc.unkilled : RunPc → Bool
  | .runningLocal f => f.isUser
  | .runningShared f => f.isUser
  | .leaving => false
  | .stopped => false
  | _ => true

/-- No call of `kill` or of the destructor. -/
def PoolPc.unkilled : PoolPc → Bool
  | .worker _ => true
  | .choosing f => f.isUser
  | .locking _ f => f.isUser
  | .pushing _ f => f.isUser
  | .kicking _ => true
  | .unlocking _ => true
  | .sharing f => f.isUser
  | .done => true
  | _ => false

/-- Whether a thread at this place looks at the shared queue before it lists itself, with `m_running`
    set. -/
def RunPc.looks : RunPc → Bool
  | .starting => true
  | .testingRunning => true
  | .takingLocal => true
  | .runningLocal _ => true
  | .testingAfterLocal => true
  | .takingShared => true
  | .runningShared _ => true
  | .unlockingWaiter => true
  | _ => false

/-- A call of `addTask` that puts its task into the shared queue next. -/
def PoolPc.isSharing : PoolPc → Bool
  | .sharing _ => true
  | _ => false

/-- A call that has not returned. -/
def PoolPc.inCall : PoolPc → Bool
  | .worker _ => false
  | .done => false
  | _ => true

namespace HThreadPool

open Lib Lib.Threads

variable {g g' : HThreadPool} {l : List PoolPc} {i t : Nat} {p q : PoolPc} {th th' : HThread}

/-! ## Nothing is killed -/

/-- A run in which `kill` is not called. -/
structure Unkilled (g : HThreadPool) (l : List PoolPc) : Prop where
  callers : ∀ p ∈ l, p.unkilled = true
  shared : ∀ f ∈ g.taskQueue, f.isUser = true
  running : ∀ th ∈ g.threads, th.running = true
  places : ∀ th ∈ g.threads, th.pc.unkilled = true
  queues : ∀ th ∈ g.threads, ∀ f ∈ th.localTaskQueue, f.isUser = true

/-- What is kept when a thread changes. -/
theorem Unkilled.setThread (h : Unkilled g l) (hrunning : th'.running = true) (hpc : th'.pc.unkilled = true)
    (hqueue : ∀ f ∈ th'.localTaskQueue, f.isUser = true) : Unkilled (g.setThread t th') l := by
  refine ⟨h.callers, h.shared, ?_, ?_, ?_⟩ <;> intro thu hu <;>
    rcases List.mem_or_eq_of_mem_set hu with hu | rfl
  · exact h.running thu hu
  · exact hrunning
  · exact h.places thu hu
  · exact hpc
  · exact h.queues thu hu
  · exact hqueue

theorem Unkilled.set (h : Unkilled g l) (hq : q.unkilled = true) : Unkilled g (l.set i q) := by
  refine ⟨fun r hr => ?_, h.shared, h.running, h.places, h.queues⟩
  rcases List.mem_or_eq_of_mem_set hr with hr | rfl
  · exact h.callers r hr
  · exact hq

/-- The task of a caller does nothing to the pool. -/
theorem Unkilled.perform (h : Unkilled g l) {f : Task} (hf : f.isUser = true) : Unkilled (g.perform f) l := by
  cases f with
  | user id => exact ⟨h.callers, h.shared, h.running, h.places, h.queues⟩
  | kill t => exact absurd hf Bool.false_ne_true

theorem Unkilled.run (h : Unkilled g l) (hth : g.threads[t]? = some th) (hmove : RunMove g t th g') :
    Unkilled g' l := by
  have hmem : th ∈ g.threads := List.mem_of_getElem? hth
  have hrunning := h.running th hmem
  have hplace := h.places th hmem
  have hqueue := h.queues th hmem
  cases hmove with
  | start hpc =>
      have hset : Unkilled (g.setThread t { th with pc := .testingRunning }) l :=
        h.setThread hrunning rfl hqueue
      exact ⟨hset.callers, hset.shared, hset.running, hset.places, hset.queues⟩
  | enter hpc hrun => exact h.setThread hrunning rfl hqueue
  | leave hpc hrun => exact absurd (hrun.symm.trans hrunning) Bool.false_ne_true
  | localEmpty hpc hnil => exact h.setThread hrunning rfl hqueue
  | takeLocal hpc hcons =>
      rw [hcons] at hqueue
      exact h.setThread hrunning (hqueue _ List.mem_cons_self)
        (fun f hf => hqueue f (List.mem_cons_of_mem _ hf))
  | ranLocal hpc =>
      rw [hpc] at hplace
      have hset : Unkilled (g.setThread t { th with pc := .takingLocal }) l := h.setThread hrunning rfl hqueue
      exact hset.perform hplace
  | afterLocal hpc hrun => exact h.setThread hrunning rfl hqueue
  | sharedEmpty hpc hnil => exact h.setThread hrunning rfl hqueue
  | @takeShared f rest hpc hcons =>
      have hshared := h.shared
      rw [hcons] at hshared
      have hset : Unkilled (g.setThread t { th with pc := .runningShared f }) l :=
        h.setThread hrunning (hshared f List.mem_cons_self) hqueue
      exact ⟨hset.callers, fun f' hf' => hshared f' (List.mem_cons_of_mem f hf'), hset.running, hset.places,
        hset.queues⟩
  | ranShared hpc =>
      rw [hpc] at hplace
      have hset : Unkilled (g.setThread t { th with pc := .takingShared }) l := h.setThread hrunning rfl hqueue
      exact hset.perform hplace
  | afterShared hpc hrun => exact h.setThread hrunning rfl hqueue
  | list hpc =>
      have hset : Unkilled (g.setThread t { th with pc := .lockingWaiter }) l :=
        h.setThread hrunning rfl hqueue
      exact ⟨hset.callers, hset.shared, hset.running, hset.places, hset.queues⟩
  | lockWaiter hpc hfree => exact h.setThread hrunning rfl hqueue
  | queueEmpty hpc hnil => exact h.setThread hrunning rfl hqueue
  | queueNotEmpty hpc hne => exact h.setThread hrunning rfl hqueue
  | sleep hpc => exact h.setThread hrunning rfl hqueue
  | wake hpc hblocked hfree => exact h.setThread hrunning rfl hqueue
  | unlockWaiter hpc => exact h.setThread hrunning rfl hqueue
  | stop hpc =>
      rw [hpc] at hplace
      exact absurd hplace Bool.false_ne_true

/-- A flag of a thread's waiter is changed. -/
theorem Unkilled.flag (h : Unkilled g l) (hth : g.threads[t]? = some th) (hrunning : th'.running = th.running)
    (hpc : th'.pc = th.pc) (hqueue : th'.localTaskQueue = th.localTaskQueue) :
    Unkilled (g.setThread t th') l := by
  have hmem : th ∈ g.threads := List.mem_of_getElem? hth
  refine h.setThread (hrunning.trans (h.running th hmem)) ?_ ?_
  · rw [hpc]
    exact h.places th hmem
  · rw [hqueue]
    exact h.queues th hmem

theorem Unkilled.next (h : Unkilled g l) (hi : l[i]? = some p) (htrans : Transition g p g' q) :
    Unkilled g' (l.set i q) := by
  have hp := h.callers p (List.mem_of_getElem? hi)
  cases htrans with
  | run hth hmove => exact (h.run hth hmove).set rfl
  | noneWaiting f hnil => exact h.set hp
  | @choose t rest f hcons =>
      have hset : Unkilled g (l.set i (.locking t f)) := h.set hp
      exact ⟨hset.callers, hset.shared, hset.running, hset.places, hset.queues⟩
  | @lock t th f hth hfree =>
      have hflag : Unkilled (g.setThread t { th with locked := true }) l := h.flag hth rfl rfl rfl
      exact hflag.set hp
  | @push t th f hth =>
      have hmem : th ∈ g.threads := List.mem_of_getElem? hth
      have hput : Unkilled (g.setThread t { th with localTaskQueue := th.localTaskQueue ++ [f] }) l := by
        refine h.setThread (h.running th hmem) (h.places th hmem) fun f' hf' => ?_
        rcases List.mem_append.mp hf' with hf' | hf'
        · exact h.queues th hmem f' hf'
        · rw [List.mem_singleton.mp hf']
          exact hp
      exact hput.set rfl
  | @kick t th hth =>
      have hflag : Unkilled (g.setThread t { th with blocked := false }) l := h.flag hth rfl rfl rfl
      exact hflag.set rfl
  | @unlock t th hth =>
      have hflag : Unkilled (g.setThread t { th with locked := false }) l := h.flag hth rfl rfl rfl
      exact hflag.set rfl
  | share f =>
      have hset : Unkilled g (l.set i .done) := h.set rfl
      refine ⟨hset.callers, fun f' hf' => ?_, hset.running, hset.places, hset.queues⟩
      rcases List.mem_append.mp hf' with hf' | hf'
      · exact h.shared f' hf'
      · rw [List.mem_singleton.mp hf']
        exact hp
  | _ => exact absurd hp Bool.false_ne_true

/-- `kill` and the destructor are not called. -/
def NoKill : Input → Bool
  | .event .kill => false
  | .event .destroy => false
  | _ => true

theorem Unkilled.append (h : Unkilled g l) {ps : List PoolPc} (hps : ∀ p ∈ ps, p.unkilled = true) :
    Unkilled g (l ++ ps) := by
  refine ⟨fun p hp => ?_, h.shared, h.running, h.places, h.queues⟩
  rcases List.mem_append.mp hp with hp | hp
  · exact h.callers p hp
  · exact hps p hp

theorem Unkilled.step {s s' : System} {input : Input} (h : Unkilled s.shared s.locals)
    (hkill : NoKill input = true) (hstep : program.step s input = some s') :
    Unkilled s'.shared s'.locals := by
  obtain ⟨e, g, ps, rfl, he, rfl⟩ | ⟨i, c, p, g, q, rfl, hi, hnext, rfl⟩ := step_cases hstep
  · obtain ⟨rfl, rfl, rfl⟩ | ⟨rfl, rfl, rfl⟩ | ⟨rfl, rfl, rfl⟩ | ⟨t, th, rfl, hth, rfl, rfl⟩ := event_cases he
    · have happ : Unkilled s.shared (s.locals ++ [.choosing (.user s.shared.accepted)]) :=
        h.append fun p hp => List.mem_singleton.mp hp ▸ rfl
      exact ⟨happ.callers, happ.shared, happ.running, happ.places, happ.queues⟩
    · exact absurd hkill Bool.false_ne_true
    · exact absurd hkill Bool.false_ne_true
    · have hflag : Unkilled (s.shared.setThread t { th with blocked := false }) s.locals :=
        h.flag hth rfl rfl rfl
      exact hflag.append fun p hp => absurd hp List.not_mem_nil
  · exact h.next hi (next_cases hnext)

theorem unkilled_init (n : Nat) : Unkilled (init n).shared (init n).locals := by
  refine ⟨?_, fun f hf => absurd hf List.not_mem_nil, ?_, ?_, ?_⟩
  · intro p hp
    obtain ⟨t, -, rfl⟩ := List.mem_map.mp hp
    rfl
  all_goals
    intro th hth
    obtain rfl := List.eq_of_mem_replicate hth
  · rfl
  · rfl
  · exact fun f hf => absurd hf List.not_mem_nil

/-- No signal of `kill` is lost where `kill` is not called. -/
theorem Unkilled.kicksInTime {s : System} (h : Unkilled s.shared s.locals) (input : Input) :
    KicksInTime s input := by
  cases input with
  | event e => trivial
  | thread i c =>
      show s.locals[i]?.any (signalLost s.shared) = false
      cases hi : s.locals[i]? with
      | none => rfl
      | some p =>
          have hp := h.callers p (List.mem_of_getElem? hi)
          cases p <;> first | rfl | exact absurd hp Bool.false_ne_true

/-! ## Some thread will look -/

/-- Whether a thread will look at the shared queue before it lists itself: a waiting thread will when it is
    no longer listed. -/
def willLook (g : HThreadPool) (t : Nat) (th : HThread) : Bool :=
  th.pc.looks || (!th.pc.awake && t ∉ g.waitingThreads)

/-- Some thread of the pool will look at the shared queue. -/
def Looks (g : HThreadPool) : Prop :=
  ∃ t ∈ List.range g.threads.length, g.threads[t]?.any (willLook g t) = true

instance (g : HThreadPool) : Decidable (Looks g) :=
  inferInstanceAs (Decidable (∃ t ∈ List.range g.threads.length, g.threads[t]?.any (willLook g t) = true))

theorem looks_iff : Looks g ↔ ∃ t th, g.threads[t]? = some th ∧ willLook g t th = true := by
  constructor
  · rintro ⟨t, -, ht⟩
    exact ⟨t, (Option.any_eq_true _ _).mp ht⟩
  · rintro ⟨t, th, hth, hlook⟩
    refine ⟨t, List.mem_range.mpr (lt_of_thread hth), ?_⟩
    rw [hth]
    exact hlook

/-- A thread goes on; the others are not listed anew. -/
theorem Looks.change (h : Looks g) (hth : g.threads[t]? = some th) (hthreads : g'.threads = g.threads.set t th')
    (hlisted : ∀ u, u ≠ t → u ∈ g'.waitingThreads → u ∈ g.waitingThreads)
    (hself : willLook g t th = true → willLook g' t th' = true) : Looks g' := by
  obtain ⟨u, thu, hu, hlook⟩ := looks_iff.mp h
  refine looks_iff.mpr ?_
  by_cases hut : u = t
  · subst hut
    obtain rfl : th = thu := Option.some.inj (hth.symm.trans hu)
    refine ⟨u, th', ?_, hself hlook⟩
    rw [hthreads, List.getElem?_set_self (lt_of_thread hth)]
  · refine ⟨u, thu, ?_, ?_⟩
    · rw [hthreads, List.getElem?_set_ne (Ne.symm hut)]
      exact hu
    · rcases Bool.or_eq_true_iff.mp hlook with hlook | hlook
      · exact Bool.or_eq_true_iff.mpr (Or.inl hlook)
      · obtain ⟨hpc, hnot⟩ := Bool.and_eq_true_iff.mp hlook
        refine Bool.or_eq_true_iff.mpr (Or.inr (Bool.and_eq_true_iff.mpr ⟨hpc, ?_⟩))
        exact decide_eq_true fun hmem => of_decide_eq_true hnot (hlisted u hut hmem)

/-- A thread that waits, and goes on waiting, looks if it is not listed. -/
theorem willLook_waiting (hpc : th.pc.awake = false) (hpc' : th'.pc.awake = false)
    (hlooks : th.pc.looks = false) (hlook : willLook g t th = true) : willLook g t th' = true := by
  simp only [willLook, hlooks, hpc, hpc', Bool.false_or, Bool.not_false, Bool.true_and] at hlook ⊢
  rw [hlook, Bool.or_true]

/-- A thread that will not look. -/
theorem not_willLook (hlooks : th.pc.looks = false) (hawake : th.pc.awake = true) :
    willLook g t th = false := by
  simp only [willLook, hlooks, hawake, Bool.not_true, Bool.false_and, Bool.or_false]

theorem willLook_of_looks (hlooks : th.pc.looks = true) : willLook g t th = true := by
  rw [willLook, hlooks, Bool.true_or]

/-- A thread of the pool puts nothing into the shared queue. -/
theorem RunMove.taskQueue_nil (hmove : RunMove g t th g') (hnil : g.taskQueue = []) : g'.taskQueue = [] := by
  cases hmove with
  | ranLocal hpc => exact (perform_rest _ _).1.trans hnil
  | ranShared hpc => exact (perform_rest _ _).1.trans hnil
  | takeShared hpc hcons => exact absurd (hnil.symm.trans hcons) (by simp)
  | _ => exact hnil

/-- **Someone looks as long as the shared queue is not empty**: a thread stops looking only when it finds
    the queue empty. -/
theorem Looks.run (h : Looks g) (hun : Unkilled g l) (hth : g.threads[t]? = some th)
    (hmove : RunMove g t th g') : g.taskQueue = [] ∨ Looks g' := by
  have hrunning := hun.running th (List.mem_of_getElem? hth)
  have hplace := hun.places th (List.mem_of_getElem? hth)
  have hsame : ∀ u, u ≠ t → u ∈ g.waitingThreads → u ∈ g.waitingThreads := fun _ _ hu => hu
  cases hmove with
  | start hpc => exact Or.inr (h.change hth rfl hsame fun _ => willLook_of_looks rfl)
  | enter hpc hrun => exact Or.inr (h.change hth rfl hsame fun _ => willLook_of_looks rfl)
  | leave hpc hrun => exact absurd (hrun.symm.trans hrunning) Bool.false_ne_true
  | localEmpty hpc hnil => exact Or.inr (h.change hth rfl hsame fun _ => willLook_of_looks rfl)
  | takeLocal hpc hcons => exact Or.inr (h.change hth rfl hsame fun _ => willLook_of_looks rfl)
  | @ranLocal f hpc =>
      have hlook : Looks (g.setThread t { th with pc := .takingLocal }) :=
        h.change hth rfl hsame fun _ => willLook_of_looks rfl
      rw [hpc] at hplace
      cases f with
      | user id => exact Or.inr hlook
      | kill u => exact absurd hplace Bool.false_ne_true
  | afterLocal hpc hrun => exact Or.inr (h.change hth rfl hsame fun _ => willLook_of_looks rfl)
  | sharedEmpty hpc hnil => exact Or.inl hnil
  | takeShared hpc hcons => exact Or.inr (h.change hth rfl hsame fun _ => willLook_of_looks rfl)
  | @ranShared f hpc =>
      have hlook : Looks (g.setThread t { th with pc := .takingShared }) :=
        h.change hth rfl hsame fun _ => willLook_of_looks rfl
      rw [hpc] at hplace
      cases f with
      | user id => exact Or.inr hlook
      | kill u => exact absurd hplace Bool.false_ne_true
  | afterShared hpc hrun =>
      refine Or.inr (h.change hth rfl hsame fun hlook => ?_)
      rw [not_willLook (by rw [hpc]; rfl) (by rw [hpc]; rfl)] at hlook
      exact absurd hlook Bool.false_ne_true
  | list hpc =>
      refine Or.inr (h.change hth rfl (fun u hne hu => ?_) fun hlook => ?_)
      · rcases List.mem_append.mp hu with hu | hu
        · exact hu
        · exact absurd (List.mem_singleton.mp hu) hne
      · rw [not_willLook (by rw [hpc]; rfl) (by rw [hpc]; rfl)] at hlook
        exact absurd hlook Bool.false_ne_true
  | lockWaiter hpc hfree =>
      exact Or.inr (h.change hth rfl hsame (willLook_waiting (by rw [hpc]; rfl) rfl (by rw [hpc]; rfl)))
  | queueEmpty hpc hnil =>
      exact Or.inr (h.change hth rfl hsame (willLook_waiting (by rw [hpc]; rfl) rfl (by rw [hpc]; rfl)))
  | queueNotEmpty hpc hne => exact Or.inr (h.change hth rfl hsame fun _ => willLook_of_looks rfl)
  | sleep hpc =>
      exact Or.inr (h.change hth rfl hsame (willLook_waiting (by rw [hpc]; rfl) rfl (by rw [hpc]; rfl)))
  | wake hpc hblocked hfree =>
      exact Or.inr (h.change hth rfl hsame (willLook_waiting (by rw [hpc]; rfl) rfl (by rw [hpc]; rfl)))
  | unlockWaiter hpc => exact Or.inr (h.change hth rfl hsame fun _ => willLook_of_looks rfl)
  | stop hpc =>
      rw [hpc] at hplace
      exact absurd hplace Bool.false_ne_true

/-- A thread that is taken off the list looks again. -/
theorem Looks.pick {rest : List Nat} (h : Looks g) (hcons : g.waitingThreads = t :: rest) :
    Looks { g with waitingThreads := rest } := by
  obtain ⟨u, thu, hu, hlook⟩ := looks_iff.mp h
  refine looks_iff.mpr ⟨u, thu, hu, ?_⟩
  rcases Bool.or_eq_true_iff.mp hlook with hlook | hlook
  · exact willLook_of_looks hlook
  · obtain ⟨hpc, hnot⟩ := Bool.and_eq_true_iff.mp hlook
    refine Bool.or_eq_true_iff.mpr (Or.inr (Bool.and_eq_true_iff.mpr ⟨hpc, ?_⟩))
    exact decide_eq_true fun hmem => of_decide_eq_true hnot (hcons ▸ List.mem_cons_of_mem t hmem)

/-- A task is put into the shared queue while some thread will look at it. -/
def SharedInTime (s : System) : Input → Prop
  | .thread i _ => s.locals[i]?.any PoolPc.isSharing = true → Looks s.shared
  | .event _ => True

instance (s : System) : ∀ input, Decidable (SharedInTime s input)
  | .thread i _ => inferInstanceAs (Decidable (s.locals[i]?.any PoolPc.isSharing = true → Looks s.shared))
  | .event _ => isTrue True.intro

theorem Looks.next (h : g.taskQueue ≠ [] → Looks g) (hun : Unkilled g l) (hi : l[i]? = some p)
    (htime : p.isSharing = true → Looks g) (htrans : Transition g p g' q) :
    g'.taskQueue ≠ [] → Looks g' := by
  have hp := hun.callers p (List.mem_of_getElem? hi)
  intro hne
  cases htrans with
  | run hth hmove =>
      have hkept : g.taskQueue ≠ [] := fun hnil => hne (hmove.taskQueue_nil hnil)
      exact (Looks.run (h hkept) hun hth hmove).resolve_left hkept
  | noneWaiting f hnil => exact h hne
  | choose f hcons => exact (h hne).pick hcons
  | lock f hth hfree => exact (h hne).change hth rfl (fun _ _ hu => hu) fun hlook => hlook
  | push f hth => exact (h hne).change hth rfl (fun _ _ hu => hu) fun hlook => hlook
  | kick hth => exact (h hne).change hth rfl (fun _ _ hu => hu) fun hlook => hlook
  | unlock hth => exact (h hne).change hth rfl (fun _ _ hu => hu) fun hlook => hlook
  | share f => exact htime rfl
  | _ => exact absurd hp Bool.false_ne_true

/-! ## Nothing is stranded -/

/-- The invariant of a run in which `kill` is not called and every task is shared in time. -/
structure Served (s : System) : Prop where
  unkilled : Unkilled s.shared s.locals
  tokens : Tokens s.shared s.locals
  waiters : Waiters s.shared s.locals
  looked : s.shared.taskQueue ≠ [] → Looks s.shared

theorem Served.step {s s' : System} {input : Input} (h : Served s)
    (htime : NoKill input = true ∧ SharedInTime s input) (hstep : program.step s input = some s') :
    Served s' := by
  refine ⟨h.unkilled.step htime.1 hstep, h.tokens.step hstep,
    h.waiters.step (h.unkilled.kicksInTime input) hstep, ?_⟩
  obtain ⟨e, g, ps, rfl, he, rfl⟩ | ⟨i, c, p, g, q, rfl, hi, hnext, rfl⟩ := step_cases hstep
  · obtain ⟨rfl, rfl, rfl⟩ | ⟨rfl, rfl, rfl⟩ | ⟨rfl, rfl, rfl⟩ | ⟨t, th, rfl, hth, rfl, rfl⟩ := event_cases he
    · exact h.looked
    · exact h.looked
    · exact h.looked
    · exact fun hne => (h.looked hne).change hth rfl (fun _ _ hu => hu) fun hlook => hlook
  · have hshared : p.isSharing = true → Looks s.shared := by simpa [SharedInTime, hi] using htime.2
    exact Looks.next h.looked h.unkilled hi hshared (next_cases hnext)

/-- Every call of `addTask` has returned. -/
def Returned (s : System) : Prop := ∀ p ∈ s.locals, p.inCall = false

/-- Every thread of the pool is blocked in `local_queue_notempty.wait()`. -/
def AllBlocked (s : System) : Prop := ∀ th ∈ s.shared.threads, th.pc = .asleep ∧ th.blocked = true

/-- When all calls have returned, a thread that sleeps has an empty queue and is listed. -/
theorem Served.listed {s : System} (h : Served s) (hreturned : Returned s) (hblocked : AllBlocked s)
    {t : Nat} {th : HThread} (hth : s.shared.threads[t]? = some th) :
    th.localTaskQueue = [] ∧ t ∈ s.shared.waitingThreads := by
  obtain ⟨hpc, hsleeps⟩ := hblocked th (List.mem_of_getElem? hth)
  have hsignals : total (signals t) s.locals = 0 := by
    refine total_eq_zero fun p hp => ?_
    have hout := hreturned p hp
    cases p <;> first | rfl | exact absurd hout.symm Bool.false_ne_true
  have hpicks : total (picks t) s.locals = 0 := by
    refine total_eq_zero fun p hp => ?_
    have hout := hreturned p hp
    cases p <;> first | rfl | exact absurd hout.symm Bool.false_ne_true
  have hnil : th.localTaskQueue = [] := by
    rcases (h.waiters t th hth).signalled (Or.inr ⟨hpc, hsleeps⟩) with hnil | hpos
    · exact hnil
    · exact absurd hpos (by omega)
  have hone := (h.tokens.token hth).waiting (by rw [hpc]; rfl)
  rw [hnil] at hone
  simp only [tally, hpicks, List.length_nil, Nat.add_zero] at hone
  exact ⟨hnil, List.count_pos_iff.mp (by omega)⟩

/-- **No task is stranded**, in every run without `kill` in which every task that is put into the shared
    queue finds some thread that will look at it: in every state in which all calls have returned and every
    thread of the pool is blocked, all queues are empty. -/
theorem nothing_stranded {n : Nat} {inputs : List Input}
    (htime : Along program.step (fun s input => NoKill input = true ∧ SharedInTime s input) (init n) inputs) :
    Always program.step (fun s => Returned s → AllBlocked s → s.shared.taskQueue = [] ∧
      ∀ th ∈ s.shared.threads, th.localTaskQueue = []) (init n) inputs := by
  refine htime.always Served Served.step ?_
    ⟨unkilled_init n, tokens_init n, waiters_init n, fun hne => absurd rfl hne⟩
  intro s h hreturned hblocked
  refine ⟨?_, fun th hth => ?_⟩
  · by_contra hne
    obtain ⟨t, th, hth, hlook⟩ := looks_iff.mp (h.looked hne)
    obtain ⟨-, hlisted⟩ := h.listed hreturned hblocked hth
    obtain ⟨hpc, -⟩ := hblocked th (List.mem_of_getElem? hth)
    simp [willLook, hpc, RunPc.looks, hlisted] at hlook
  · obtain ⟨t, hth⟩ := List.mem_iff_getElem?.mp hth
    exact (h.listed hreturned hblocked hth).1

/-- A task is put into the shared queue before the thread looks at it; the thread executes it, finds the
    queue empty and blocks. -/
def sharedBefore : List Input :=
  [.event .addTask] ++ List.replicate 2 (.thread 1 ()) ++ List.replicate 12 (.thread 0 ())

theorem sharedBefore_served : ∃ s, run 1 sharedBefore = some s ∧ s.shared.executed = [.user 0] ∧
    s.shared.taskQueue = [] ∧ ∀ th ∈ s.shared.threads, th.localTaskQueue = [] := by
  refine ⟨(run 1 sharedBefore).get (by decide), (Option.some_get _).symm, by decide, ?_⟩
  exact nothing_stranded (by decide) sharedBefore _ (List.prefix_refl _) (Option.some_get (by decide)).symm
    (by unfold Returned; decide) (by unfold AllBlocked; decide)

/-- The thread has found the shared queue empty and does not wait yet; a caller finds the list empty, and
    puts its task into the shared queue. -/
def missedTask : List Input :=
  List.replicate 5 (.thread 0 ()) ++ [.event .addTask] ++ List.replicate 2 (.thread 1 ()) ++
    List.replicate 5 (.thread 0 ())

/-- The call has returned, the thread is blocked, and the task is in the shared queue. -/
theorem missedTask_stranded : (∀ input ∈ missedTask, NoKill input = true) ∧
    ∃ s, run 1 missedTask = some s ∧ Returned s ∧ AllBlocked s ∧ s.shared.taskQueue = [.user 0] :=
  ⟨by decide, (run 1 missedTask).get (by decide), (Option.some_get _).symm, by unfold Returned; decide,
    by unfold AllBlocked; decide, by decide⟩

end HThreadPool
end Threads
end Hiaux
