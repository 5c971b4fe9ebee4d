import Hiaux.Threads.Correctness.Pool

/-!
# `Threads.Correctness.Waking` — when a signal is lost

`hCondWaiter::wait` tests the thread's queue and goes to sleep under the waiter's mutex, so a signal sent by
a caller that holds the mutex cannot fall between the two. `hThreadPool::addTask` holds it; `hThreadPool::kill`
does not, and its signal is lost when the thread has just found its queue empty. The thread then blocks with
the task in its queue, and is on no list from which a later `kill` could take it.

What is kept by every other step is the account of one waiter (`Waiter`): who holds the mutex, and that a
thread that sleeps, or is about to, has an empty queue or a caller that will signal it.
-/

namespace Hiaux
namespace Threads

/-- Whether the thread holds the mutex of its waiter. -/
def RunPc.holdsMutex : RunPc → Bool
  | .testingQueue => true
  | .sleeping => true
  | .unlockingWaiter => true
  | _ => false

/-- Whether the thread has locked the mutex in `wait` and not unlocked it since, for good. -/
def RunPc.waits : RunPc → Bool
  | .testingQueue => true
  | .sleeping => true
  | .asleep => true
  | .unlockingWaiter => true
  | _ => false

theorem RunPc.holdsMutex_of_not_waits {pc : RunPc} (h : pc.waits = false) : pc.holdsMutex = false := by
  cases pc <;> first | rfl | exact absurd h.symm Bool.false_ne_true

namespace HThreadPool

open Lib Lib.Threads

/-! ## The account of a waiter -/

/-- A caller holds the mutex of the thread's waiter. -/
def locks (t : Nat) : PoolPc → Nat
  | .pushing u _ => if u = t then 1 else 0
  | .kicking u => if u = t then 1 else 0
  | .unlocking u => if u = t then 1 else 0
  | _ => 0

/-- A caller has put a task into the thread's queue, and signals it next. -/
def signals (t : Nat) : PoolPc → Nat
  | .kicking u => if u = t then 1 else 0
  | .killKicking _ u => if u = t then 1 else 0
  | _ => 0

/-- A thread sleeps in `pthread_cond_wait`, or has tested its queue and goes to sleep next. -/
def Sleeps (th : HThread) : Prop := th.pc = .sleeping ∨ (th.pc = .asleep ∧ th.blocked = true)

/-- The waiter of a thread, with the number of callers that hold its mutex and of those that signal next. -/
structure Waiter (th : HThread) (holders signallers : Nat) : Prop where
  mutex : holders + th.pc.holdsMutex.toNat = th.locked.toNat
  blocked : th.blocked = true → th.pc = .asleep
  signalled : Sleeps th → th.localTaskQueue = [] ∨ 0 < signallers

/-- The account of every waiter. -/
def Waiters (g : HThreadPool) (l : List PoolPc) : Prop :=
  ∀ t th, g.threads[t]? = some th → Waiter th (total (locks t) l) (total (signals t) l)

variable {g g' : HThreadPool} {l l' : List PoolPc} {i t : Nat} {p q : PoolPc} {th th' : HThread}

/-- A step changes one thread; the other waiters are left alone. -/
theorem Waiters.change (h : Waiters g l) (hthreads : g'.threads = g.threads.set t th')
    (hother : ∀ u, u ≠ t → total (locks u) l' = total (locks u) l ∧ total (signals u) l' = total (signals u) l)
    (hself : Waiter th' (total (locks t) l') (total (signals t) l')) : Waiters g' l' := by
  intro u thu hu
  rw [hthreads] at hu
  rcases getElem?_set_cases hu with ⟨rfl, rfl⟩ | ⟨hne, hu⟩
  · exact hself
  · obtain ⟨hlocks, hsignals⟩ := hother u hne
    rw [hlocks, hsignals]
    exact h u thu hu

/-- A thread of the pool goes on, and no caller does. -/
theorem Waiters.setThread (h : Waiters g l) (hth : g.threads[t]? = some th)
    (hwait : ∀ {holders signallers}, Waiter th holders signallers → Waiter th' holders signallers) :
    Waiters (g.setThread t th') l :=
  h.change rfl (fun _ _ => ⟨rfl, rfl⟩) (hwait (h t th hth))

/-- A caller goes on without touching a waiter. -/
theorem Waiters.set (h : Waiters g l) (hi : l[i]? = some p) (hlocks : ∀ u, locks u q = locks u p)
    (hsignals : ∀ u, signals u q = signals u p) : Waiters g (l.set i q) := by
  intro u thu hu
  have hsetLocks := total_set (locks u) hi q
  have hsetSignals := total_set (signals u) hi q
  rw [hlocks u] at hsetLocks
  rw [hsignals u] at hsetSignals
  rw [Nat.add_right_cancel hsetLocks, Nat.add_right_cancel hsetSignals]
  exact h u thu hu

/-- A caller takes a step at the waiter of one thread. -/
theorem Waiters.visit (h : Waiters g l) (hi : l[i]? = some p) (hth : g.threads[t]? = some th)
    (hother : ∀ u, t ≠ u → locks u q = locks u p ∧ signals u q = signals u p)
    (hself : ∀ {holders signallers}, Waiter th (holders + locks t p) (signallers + signals t p) →
      Waiter th' (holders + locks t q) (signallers + signals t q)) :
    Waiters (g.setThread t th') (l.set i q) := by
  have hmem : p ∈ l := List.mem_of_getElem? hi
  refine h.change rfl ?_ ?_
  · intro u hne
    obtain ⟨hlocks, hsignals⟩ := hother u (Ne.symm hne)
    have hsetLocks := total_set (locks u) hi q
    have hsetSignals := total_set (signals u) hi q
    exact ⟨by omega, by omega⟩
  · have hsetLocks := total_set (locks t) hi q
    have hsetSignals := total_set (signals t) hi q
    have hleLocks := le_total (locks t) hmem
    have hleSignals := le_total (signals t) hmem
    have hwait := h t th hth
    rw [← Nat.sub_add_cancel hleLocks, ← Nat.sub_add_cancel hleSignals] at hwait
    have hnew := hself hwait
    have hlocks : total (locks t) l - locks t p + locks t q = total (locks t) (l.set i q) := by omega
    have hsignals : total (signals t) l - signals t p + signals t q = total (signals t) (l.set i q) := by omega
    rwa [hlocks, hsignals] at hnew

theorem Waiters.perform (h : Waiters g l) (f : Task) : Waiters (g.perform f) l := by
  intro u thu hu
  obtain ⟨thu', hu', heq⟩ := perform_threads g f hu
  rw [heq]
  exact ⟨(h u thu' hu').mutex, (h u thu' hu').blocked, (h u thu' hu').signalled⟩

/-! ## Steps of a pool thread -/

/-- A thread that is not asleep goes somewhere other than to sleep; what it does to the mutex is in
    order. -/
theorem Waiter.moved {holders signallers : Nat} (h : Waiter th holders signallers) (hpc : th.pc ≠ .asleep)
    (hblocked : th'.blocked = th.blocked) (hpc' : th'.pc ≠ .sleeping ∧ th'.pc ≠ .asleep)
    (hmutex : holders + th'.pc.holdsMutex.toNat = th'.locked.toNat) : Waiter th' holders signallers := by
  refine ⟨hmutex, fun hb => absurd (h.blocked (hblocked.symm.trans hb)) hpc, ?_⟩
  rintro (hsleep | ⟨hsleep, -⟩)
  · exact absurd hsleep hpc'.1
  · exact absurd hsleep hpc'.2

/-- A thread goes from one place outside `wait` to another. -/
theorem Waiters.goto (h : Waiters g l) (hth : g.threads[t]? = some th) {pc : RunPc} (hpc : th.pc = pc)
    (hout : pc.waits = false) (hlocked : th'.locked = th.locked) (hblocked : th'.blocked = th.blocked)
    (hout' : th'.pc.waits = false) : Waiters (g.setThread t th') l := by
  refine h.setThread hth fun hw => hw.moved ?_ hblocked ⟨?_, ?_⟩ ?_
  · rintro hasleep
    rw [← hpc, hasleep] at hout
    exact absurd hout.symm Bool.false_ne_true
  · intro hsleeping
    rw [hsleeping] at hout'
    exact absurd hout'.symm Bool.false_ne_true
  · intro hasleep
    rw [hasleep] at hout'
    exact absurd hout'.symm Bool.false_ne_true
  · have hmutex := hw.mutex
    rw [hpc, RunPc.holdsMutex_of_not_waits hout] at hmutex
    rw [RunPc.holdsMutex_of_not_waits hout', hlocked]
    exact hmutex

/-- **A step of a pool thread keeps the accounts of the waiters.** -/
theorem Waiters.run (h : Waiters g l) (hth : g.threads[t]? = some th) (hmove : RunMove g t th g') :
    Waiters g' l := by
  cases hmove with
  | start hpc => exact h.goto hth hpc rfl rfl rfl rfl
  | enter hpc hrun => exact h.goto hth hpc rfl rfl rfl rfl
  | leave hpc hrun => rcases hpc with hpc | hpc | hpc <;> exact h.goto hth hpc rfl rfl rfl rfl
  | localEmpty hpc hnil => exact h.goto hth hpc rfl rfl rfl rfl
  | takeLocal hpc hcons => exact h.goto hth hpc rfl rfl rfl rfl
  | ranLocal hpc =>
      have hgo : Waiters (g.setThread t { th with pc := .takingLocal }) l := h.goto hth hpc rfl rfl rfl rfl
      exact hgo.perform _
  | afterLocal hpc hrun => exact h.goto hth hpc rfl rfl rfl rfl
  | sharedEmpty hpc hnil => exact h.goto hth hpc rfl rfl rfl rfl
  | takeShared hpc hcons => exact h.goto hth hpc rfl rfl rfl rfl
  | ranShared hpc =>
      have hgo : Waiters (g.setThread t { th with pc := .takingShared }) l := h.goto hth hpc rfl rfl rfl rfl
      exact hgo.perform _
  | afterShared hpc hrun => exact h.goto hth hpc rfl rfl rfl rfl
  | list hpc => exact h.goto hth hpc rfl rfl rfl rfl
  | lockWaiter hpc hfree =>
      refine h.setThread hth fun hw => hw.moved (by simp [hpc]) rfl (by simp) ?_
      have hmutex := hw.mutex
      rw [hpc, hfree] at hmutex
      simpa [RunPc.holdsMutex] using hmutex
  | queueEmpty hpc hnil =>
      refine h.setThread hth fun hw => ⟨?_, fun hb => ?_, fun _ => Or.inl hnil⟩
      · have hmutex := hw.mutex
        rw [hpc] at hmutex
        exact hmutex
      · exact absurd (hpc.symm.trans (hw.blocked hb)) (by simp)
  | queueNotEmpty hpc hne =>
      refine h.setThread hth fun hw => hw.moved (by simp [hpc]) rfl (by simp) ?_
      have hmutex := hw.mutex
      rw [hpc] at hmutex
      exact hmutex
  | sleep hpc =>
      -- the test of the queue and the wait are one section of the mutex
      refine h.setThread hth fun hw => ⟨?_, fun _ => rfl, fun _ => hw.signalled (Or.inl hpc)⟩
      have hmutex := hw.mutex
      have hle := Bool.toNat_le th.locked
      rw [hpc] at hmutex
      simp only [RunPc.holdsMutex, Bool.toNat_true, Bool.toNat_false] at hmutex ⊢
      omega
  | wake hpc hblocked hfree =>
      refine h.setThread hth fun hw => ⟨?_, fun hb => absurd (hblocked.symm.trans hb) (by simp), ?_⟩
      · have hmutex := hw.mutex
        rw [hpc, hfree] at hmutex
        simpa [RunPc.holdsMutex] using hmutex
      · rintro (hsleep | ⟨hsleep, -⟩) <;> exact absurd hsleep (by simp)
  | unlockWaiter hpc =>
      refine h.setThread hth fun hw => hw.moved (by simp [hpc]) rfl (by simp) ?_
      have hmutex := hw.mutex
      have hle := Bool.toNat_le th.locked
      rw [hpc] at hmutex
      simp only [RunPc.holdsMutex, Bool.toNat_true, Bool.toNat_false] at hmutex ⊢
      omega
  | stop hpc => exact h.goto hth hpc rfl rfl rfl rfl

/-! ## Steps of a caller -/

/-- The flags of a waiter say nothing of `m_running` and the queue. -/
theorem Waiter.stopped {holders signallers : Nat} (h : Waiter th holders signallers) :
    Waiter { th with running := false } holders signallers :=
  ⟨h.mutex, h.blocked, h.signalled⟩

/-- A caller puts a task into the queue and signals next. -/
theorem Waiter.pushed {holders signallers : Nat} (h : Waiter th holders signallers) (f : Task) :
    Waiter { th with localTaskQueue := th.localTaskQueue ++ [f] } holders (signallers + 1) :=
  ⟨h.mutex, h.blocked, fun _ => Or.inr (Nat.succ_pos _)⟩

/-- A signal that finds the thread elsewhere than between its test and its wait. -/
theorem Waiter.kicked {holders signallers signallers' : Nat} (h : Waiter th holders signallers)
    (hpc : th.pc ≠ .sleeping) : Waiter { th with blocked := false } holders signallers' := by
  refine ⟨h.mutex, fun hb => absurd hb Bool.false_ne_true, ?_⟩
  rintro (hsleep | ⟨-, hsleep⟩)
  · exact absurd hsleep hpc
  · exact absurd hsleep Bool.false_ne_true

/-- A thread whose mutex a caller holds is not between its test and its wait. -/
theorem Waiter.not_sleeping {holders signallers : Nat} (h : Waiter th (holders + 1) signallers) :
    th.pc ≠ .sleeping := by
  intro hpc
  have hmutex := h.mutex
  have hle := Bool.toNat_le th.locked
  rw [hpc] at hmutex
  simp only [RunPc.holdsMutex, Bool.toNat_true] at hmutex
  omega

/-- `kill` is about to signal a thread that has tested its queue and does not wait yet. -/
def signalLost (g : HThreadPool) : PoolPc → Bool
  | .killKicking _ t => g.threads[t]?.any (fun th => th.pc = .sleeping)
  | _ => false

/-- `kill` signals a thread at a moment other than between the thread's test of its queue and its wait. -/
def KicksInTime (s : System) : Input → Prop
  | .thread i _ => s.locals[i]?.any (signalLost s.shared) = false
  | .event _ => True

instance (s : System) : ∀ input, Decidable (KicksInTime s input)
  | .thread i _ => inferInstanceAs (Decidable (s.locals[i]?.any (signalLost s.shared) = false))
  | .event _ => isTrue True.intro

/-- **A step of any thread keeps the accounts of the waiters**, but for a signal of `kill` that finds the
    thread between its test and its wait. -/
theorem Waiters.next (h : Waiters g l) (hi : l[i]? = some p) (htrans : Transition g p g' q)
    (htime : signalLost g p = false) : Waiters g' (l.set i q) := by
  cases htrans with
  | run hth hmove => exact (h.run hth hmove).set hi (fun _ => rfl) (fun _ => rfl)
  | noneWaiting f hnil => exact h.set hi (fun _ => rfl) (fun _ => rfl)
  | choose f hcons => exact h.set hi (fun _ => rfl) (fun _ => rfl)
  | lock f hth hfree =>
      refine h.visit hi hth (fun u hne => by simp [locks, signals, hne]) fun hw => ?_
      refine ⟨?_, hw.blocked, fun hsleep => ?_⟩
      · have hmutex := hw.mutex
        simp only [locks, hfree, Bool.toNat_false, if_true, Bool.toNat_true] at hmutex ⊢
        omega
      · simpa [signals] using hw.signalled hsleep
  | push f hth =>
      refine h.visit hi hth (fun u hne => by simp [locks, signals, hne]) fun hw => ?_
      simpa [locks, signals] using hw.pushed f
  | kick hth =>
      refine h.visit hi hth (fun u hne => by simp [locks, signals, hne]) fun hw => ?_
      simp only [locks, if_true] at hw ⊢
      exact hw.kicked hw.not_sleeping
  | @unlock t th hth =>
      refine h.visit hi hth (fun u hne => by simp [locks, signals, hne]) fun hw => ?_
      refine ⟨?_, hw.blocked, fun hsleep => hw.signalled hsleep⟩
      have hmutex := hw.mutex
      have hle := Bool.toNat_le th.locked
      simp only [locks, if_true, Bool.toNat_false] at hmutex ⊢
      omega
  | share f =>
      have hset : Waiters g (l.set i .done) := h.set hi (fun _ => rfl) (fun _ => rfl)
      exact hset
  | stillRunning hpos => exact h.set hi (fun _ => rfl) (fun _ => rfl)
  | noneRunning hzero => exact h.set hi (fun _ => rfl) (fun _ => rfl)
  | stop k hth => exact h.visit hi hth (fun _ _ => ⟨rfl, rfl⟩) fun hw => hw.stopped
  | stopped k hnone => exact h.set hi (fun _ => rfl) (fun _ => rfl)
  | drained k hnil => exact h.set hi (fun _ => by cases k <;> rfl) (fun _ => by cases k <;> rfl)
  | drain k hcons => exact h.set hi (fun _ => rfl) (fun _ => rfl)
  | killPush k hth =>
      refine h.visit hi hth (fun u hne => by simp [locks, signals, hne]) fun hw => ?_
      simpa [locks, signals] using hw.pushed _
  | @killKick t th k hth =>
      have hpc : th.pc ≠ .sleeping := by simpa [signalLost, hth] using htime
      refine h.visit hi hth (fun u hne => by simp [locks, signals, hne]) fun hw => ?_
      simpa [locks, signals] using hw.kicked hpc

theorem Waiters.append (h : Waiters g l) {ps : List PoolPc}
    (hps : ∀ u, total (locks u) ps = 0 ∧ total (signals u) ps = 0) : Waiters g (l ++ ps) := by
  intro u thu hu
  obtain ⟨hlocks, hsignals⟩ := hps u
  rw [total_append, total_append, hlocks, hsignals]
  exact h u thu hu

theorem Waiters.step {s s' : System} {input : Input} (h : Waiters s.shared s.locals)
    (htime : KicksInTime s input) (hstep : program.step s input = some s') :
    Waiters s'.shared s'.locals := by
  obtain ⟨e, g, ps, rfl, he, rfl⟩ | ⟨i, c, p, g, q, rfl, hi, hnext, rfl⟩ := step_cases hstep
  · obtain ⟨rfl, rfl, rfl⟩ | ⟨rfl, rfl, rfl⟩ | ⟨rfl, rfl, rfl⟩ | ⟨t, th, rfl, hth, rfl, rfl⟩ := event_cases he
    · exact h.append fun _ => ⟨rfl, rfl⟩
    · exact h.append fun _ => ⟨rfl, rfl⟩
    · exact h.append fun _ => ⟨rfl, rfl⟩
    · -- a thread that wakes for no reason tests its queue again
      have hwake : Waiters (s.shared.setThread t { th with blocked := false }) s.locals := by
        refine h.setThread hth fun hw => ⟨hw.mutex, fun hb => absurd hb Bool.false_ne_true, ?_⟩
        rintro (hsleep | ⟨-, hsleep⟩)
        · exact hw.signalled (Or.inl hsleep)
        · exact absurd hsleep Bool.false_ne_true
      exact hwake.append fun _ => ⟨rfl, rfl⟩
  · have hkept : signalLost s.shared p = false := by simpa [KicksInTime, hi] using htime
    exact h.next hi (next_cases hnext) hkept

theorem waiters_init (n : Nat) : Waiters (init n).shared (init n).locals := by
  intro t th hth
  obtain rfl := List.eq_of_mem_replicate (List.mem_of_getElem? hth)
  have hlocks : total (locks t) (init n).locals = 0 := by
    refine total_eq_zero fun p hp => ?_
    obtain ⟨u, -, rfl⟩ := List.mem_map.mp hp
    rfl
  rw [hlocks]
  refine ⟨rfl, fun hb => absurd hb Bool.false_ne_true, ?_⟩
  rintro (hsleep | ⟨hsleep, -⟩) <;> exact absurd hsleep (by simp)

/-! ## Every thread can be woken -/

/-- A caller that will signal the thread. -/
def willSignal (t : Nat) (p : PoolPc) : Bool := 0 < picks t p + signals t p

/-- A thread sleeps with a task in its queue; it is not listed, and no caller will signal it. -/
def Stuck (s : System) (t : Nat) : Prop :=
  ∃ th, s.shared.threads[t]? = some th ∧ th.pc = .asleep ∧ th.blocked = true ∧ th.localTaskQueue ≠ [] ∧
    t ∉ s.shared.waitingThreads ∧ ∀ p ∈ s.locals, willSignal t p = false

/-- **Shutdown can wake every thread**, in every run in which no signal of `kill` falls between a thread's
    test of its queue and its wait: in no state it goes through does a thread sleep with a task in its
    queue, not listed, and with no caller that will signal it. -/
theorem never_stuck {n : Nat} {inputs : List Input} (htime : Along program.step KicksInTime (init n) inputs) :
    Always program.step (fun s => ∀ t, ¬ Stuck s t) (init n) inputs := by
  refine htime.always (fun s => Waiters s.shared s.locals) Waiters.step ?_ (waiters_init n)
  rintro s h t ⟨th, hth, hpc, hblocked, hqueue, -, hnone⟩
  rcases (h t th hth).signalled (Or.inr ⟨hpc, hblocked⟩) with hnil | hpos
  · exact hqueue hnil
  · obtain ⟨p, hp, hsig⟩ := exists_of_total_pos hpos
    have hwill : willSignal t p = true := decide_eq_true (Nat.add_pos_right _ hsig)
    exact absurd (hwill.symm.trans (hnone p hp)) (by simp)

/-- A thread waits; `kill` takes it off the list, gives it a task and signals it. -/
def killedInTime : List Input :=
  List.replicate 10 (.thread 0 ()) ++ [.event .kill] ++ List.replicate 6 (.thread 1 ())

theorem killedInTime_not_stuck : ∃ s, run 1 killedInTime = some s ∧ ¬ Stuck s 0 := by
  refine ⟨(run 1 killedInTime).get (by decide), (Option.some_get _).symm, ?_⟩
  exact never_stuck (by decide) killedInTime _ (List.prefix_refl _) (Option.some_get (by decide)).symm 0

/-- A thread has found its queue empty and does not wait yet; `kill` takes it off the list, gives it a task
    and signals it, and then the thread waits. -/
def killedTooEarly : List Input :=
  List.replicate 9 (.thread 0 ()) ++ [.event .destroy] ++ List.replicate 7 (.thread 1 ()) ++ [.thread 0 ()]

/-- The destructor goes on calling `kill`, which finds no thread to wake. -/
theorem killedTooEarly_stuck : ∃ s, run 1 killedTooEarly = some s ∧ Stuck s 0 ∧
    s.shared.nrunningThreads = 1 ∧ s.locals[1]? = some .testingNrunning := by
  refine ⟨(run 1 killedTooEarly).get (by decide), (Option.some_get _).symm, ?_, by decide, by decide⟩
  exact ⟨⟨.asleep, false, [.kill 0], false, true⟩, by decide, rfl, rfl, by simp, by decide, by decide⟩

end HThreadPool
end Threads
end Hiaux
