import Hiaux.Threads.Correctness.Counters

/-!
# `Threads.Correctness.Launch` — which tasks get launched

A thread decides in `checkLaunch` whether to take a task from the queue, on two counters loaded one after
the other. It may wrongly decide not to, when the counters move between the loads. No task is lost by that
(`no_task_lost`): while a task is launched or on its way, its end brings another `checkLaunch`; and once
none is, the counters stand still, so some thread that still looks sees them as they are.

It may also wrongly decide to take one. The number of tasks launched stays within `m_max_parallel` as long
as no task is counted as launched while another thread is deciding (`launched_within_limit`), and not
otherwise.
-/

namespace Hiaux
namespace Threads
namespace TaskLauncher

open Lib Lib.Threads

/-! ## No task is lost -/

/-- What an expression has loaded is what the counters still hold. -/
def Fresh (g : TaskLauncher) (l f : Option UInt64) : Prop :=
  (∀ v ∈ l, v = g.tasksLaunched) ∧ ∀ v ∈ f, v = g.tasksFinished

theorem fresh_none (g : TaskLauncher) : Fresh g none none :=
  ⟨fun _ h => absurd h (by simp), fun _ h => absurd h (by simp)⟩

/-- A load keeps what is loaded fresh. -/
theorem Fresh.load {g : TaskLauncher} {l f : Option UInt64} (h : Fresh g l f) (first : Counter) :
    Fresh g (g.load first l f).1 (g.load first l f).2 := by
  obtain ⟨hl, hf⟩ := h
  cases l <;> cases f <;> cases first <;> simp_all [TaskLauncher.load, Fresh]

/-- A thread in `checkLaunch` that is going to look at the queue, unless the counters change first. -/
def WillLook (g : TaskLauncher) : Pc → Prop
  | .counting _ l f => Fresh g l f
  | .taking _ => True
  | _ => False

/-- The invariant: with nothing launched or on its way, a queued task has a thread that will look. -/
structure Watched (s : System) : Prop where
  counted : Counted s
  limit : 0 < s.shared.maxParallel
  watched : launched s = 0 → popped s = 0 → s.shared.taskQ ≠ [] → ∃ p ∈ s.locals, WillLook s.shared p

variable {g g' : TaskLauncher} {l : List Pc} {i : Nat} {p q : Pc} {c : Choice}

/-- With the counters equal and a task queued, a thread that will look goes on to look, and pops. -/
theorem WillLook.next (h : WillLook g p) (htrans : Transition g p g' q) (hq : g.taskQ ≠ [])
    (heq : g.tasksLaunched = g.tasksFinished) (hmax : 0 < g.maxParallel) (hpop : poppedIn q = 0) :
    WillLook g' q := by
  cases htrans with
  | @count first _ _ _ _ k hload =>
      have hfresh := Fresh.load h first
      rw [hload] at hfresh
      exact hfresh
  | countLow => exact True.intro
  | @countHigh first _ _ l' f' k hload hhigh =>
      -- fresh values of equal counters differ by zero
      have hfresh := Fresh.load h first
      rw [hload] at hfresh
      have hzero : l' - f' = 0 := by rw [hfresh.1 l' rfl, hfresh.2 f' rfl, heq, UInt64.sub_self]
      rw [hzero] at hhigh
      exact absurd hmax hhigh
  | takeNone k hnil => exact absurd hnil hq
  | take k hcons => exact absurd hpop (by simp [poppedIn])
  | _ => exact absurd h (by simp [WillLook])

theorem Watched.next (h : Watched ⟨g, l⟩) (hi : l[i]? = some p) (htrans : Transition g p g' q) :
    Watched ⟨g', l.set i q⟩ := by
  have hset := launched_set (g := g) hi g' q
  have hpopped := popped_set (g := g) hi g' q
  refine ⟨h.counted.next hi htrans.effect, ?_, ?_⟩
  · show 0 < g'.maxParallel
    rw [htrans.maxParallel]
    exact h.limit
  · intro hlaunched hpop htaskQ
    dsimp only at htaskQ ⊢
    rw [hlaunched] at hset
    rw [hpop] at hpopped
    cases htrans.effect with
    -- whoever pushes a task or finishes one looks next
    | push k task => exact ⟨_, mem_set_self hi _, fresh_none _⟩
    | finish => exact ⟨_, mem_set_self hi _, fresh_none _⟩
    | pop k hcons =>
        simp only [poppedIn] at hpopped
        omega
    | launch k task =>
        simp only [launchedIn] at hset
        omega
    | submit k task => simp [launched] at hlaunched
    | still hstill =>
        rw [hstill.pool, hstill.launchedIn] at hset
        rw [hstill.popped_before] at hpopped
        have hnone : launched ⟨g, l⟩ = 0 := by omega
        have heq : g.tasksLaunched = g.tasksFinished := h.counted.eq_of_none hnone
        have hne : g.taskQ ≠ [] := by
          rw [← hstill.taskQ]
          exact htaskQ
        refine exists_mem_set hi ?_
          (fun hlook => hlook.next htrans hne heq h.limit hstill.popped_after)
          (h.watched hnone (by omega) hne)
        intro r _ hr
        have hl := hstill.tasksLaunched
        have hf := hstill.tasksFinished
        cases r <;> simp_all [WillLook, Fresh]

theorem Watched.step {s t : System} {input : Input} (h : Watched s)
    (hstep : threads.step s input = some t) : Watched t := by
  have hcounted := h.counted.step hstep
  obtain ⟨e, g, ps, -, he, rfl⟩ | ⟨i, c, p, g, q, -, hi, hnext, rfl⟩ := step_cases hstep
  · obtain ⟨task, -, rfl, rfl⟩ | ⟨-, rfl, rfl⟩ | ⟨j, task, -, hj, rfl, rfl⟩ := event_cases he
    · refine ⟨hcounted, h.limit, fun hlaunched hpop htaskQ => ?_⟩
      obtain ⟨p, hp, hlook⟩ := h.watched (by simpa [launched, launchedIn, launchedIn.unfinished] using hlaunched)
        (by simpa [popped, poppedIn] using hpop) htaskQ
      exact ⟨p, List.mem_append_left _ hp, hlook⟩
    · refine ⟨hcounted, h.limit, fun hlaunched hpop htaskQ => ?_⟩
      obtain ⟨p, hp, hlook⟩ := h.watched (by simpa [launched] using hlaunched)
        (by simpa [popped] using hpop) htaskQ
      exact ⟨p, List.mem_append_left _ hp, hlook⟩
    · refine ⟨hcounted, h.limit, fun hlaunched _ _ => ?_⟩
      simp [launched, launchedIn] at hlaunched
  · exact h.next hi (next_cases hnext)

/-- **No task is lost.** In every state of every run in which no thread is inside the launcher and every
    launched task has finished, the queue is empty. -/
theorem no_task_lost {maxParallel : UInt64} (hmax : 1 ≤ maxParallel) {inputs : List Input} {s : System}
    (hrun : run maxParallel inputs = some s) (hidle : Idle s) (hfinished : launched s = 0) :
    s.shared.taskQ = [] := by
  have hinit : Watched (init maxParallel) := ⟨counted_init _, hmax, fun _ _ h => absurd rfl h⟩
  have hinv : Watched s := run_invariant Watched Watched.step hinit hrun
  by_contra hne
  have hpop : popped s = 0 := total_eq_zero fun p hp => by rw [hidle p hp]; rfl
  obtain ⟨p, hp, hlook⟩ := hinv.watched hfinished hpop hne
  rw [hidle p hp] at hlook
  exact hlook

/-- A step in which nothing is left open that matters: a task returns `NO_RELAUNCH`, and
    `tasks_launched` is loaded first. -/
def go : Choice := ⟨.noRelaunch, .launched⟩

/-- `n` such steps of one execution. -/
def goes (i n : Nat) : List Input := List.replicate n (.thread i go)

/-- A task is added, launched, and returns `RELAUNCH` once. -/
def relaunchedOnce : List Input :=
  [.event (.addTask 7)] ++ goes 0 8 ++ [.event (.start 0), .thread 1 ⟨.relaunch, .finished⟩] ++ goes 1 13 ++
    [.event (.start 0)] ++ goes 2 8

theorem relaunchedOnce_idle :
    ∃ s, run 1 relaunchedOnce = some s ∧ s.shared.tasksLaunched = 2 ∧ s.shared.taskQ = [] := by
  have hrun : run 1 relaunchedOnce = some ((run 1 relaunchedOnce).get (by decide)) := (Option.some_get _).symm
  exact ⟨_, hrun, by decide, no_task_lost (by decide) hrun (by unfold Idle; decide) (by decide)⟩

/-! ## The limit -/

/-- Whether a thread is deciding to launch a task: it has begun to load the counters, has found them to
    allow one more, or has popped a task, and has not yet counted it. -/
def deciding : Pc → Bool
  | .counting _ none none => false
  | .counting _ _ _ => true
  | .taking _ => true
  | .launching _ _ => true
  | _ => false

/-- Whether the next access is `tasks_launched++`. -/
def atLaunch : Pc → Bool
  | .launching _ _ => true
  | _ => false

/-- A task is counted as launched only while no other thread is deciding. -/
def LaunchesAlone (s : System) : Input → Prop
  | .thread i _ => s.locals[i]?.any atLaunch = true → ∀ p ∈ s.locals.eraseIdx i, deciding p = false
  | .event _ => True

instance (s : System) : ∀ input, Decidable (LaunchesAlone s input)
  | .thread i _ => inferInstanceAs (Decidable (s.locals[i]?.any atLaunch = true →
      ∀ p ∈ s.locals.eraseIdx i, deciding p = false))
  | .event _ => isTrue True.intro

/-- What a deciding thread knows, with `n` tasks launched: `tasks_launched` is what it has loaded, and it
    has not loaded more than `tasks_finished` since. -/
def Admits (g : TaskLauncher) (n : Nat) : Pc → Prop
  | .counting _ l f => (∀ v ∈ l, v = g.tasksLaunched) ∧ ∀ v ∈ f, n ≤ (g.tasksLaunched - v).toNat
  | .taking _ => n < g.maxParallel.toNat
  | .launching _ _ => n < g.maxParallel.toNat
  | _ => True

theorem admits_of_not_deciding (g : TaskLauncher) (n : Nat) (h : deciding p = false) : Admits g n p := by
  cases p with
  | counting k l f =>
      cases l <;> cases f <;> simp_all [deciding, Admits]
  | taking k => exact absurd h (by simp [deciding])
  | launching k task => exact absurd h (by simp [deciding])
  | _ => exact True.intro

theorem admits_return (g : TaskLauncher) (n : Nat) (k : Caller) : Admits g n k.return := by
  cases k <;> exact True.intro

/-- While no task is counted as launched, fewer and fewer tasks are. -/
theorem Admits.mono {n n' : Nat} (h : Admits g n p) (hl : g'.tasksLaunched = g.tasksLaunched)
    (hmax : g'.maxParallel = g.maxParallel) (hn : n' ≤ n) : Admits g' n' p := by
  cases p with
  | counting k l f =>
      refine ⟨fun v hv => (h.1 v hv).trans hl.symm, fun v hv => ?_⟩
      rw [hl]
      exact Nat.le_trans hn (h.2 v hv)
  | taking k =>
      show n' < _
      rw [hmax]
      exact Nat.lt_of_le_of_lt hn h
  | launching k task =>
      show n' < _
      rw [hmax]
      exact Nat.lt_of_le_of_lt hn h
  | _ => exact True.intro

/-- A load keeps what a deciding thread knows. -/
theorem admits_load {n : Nat} {l f : Option UInt64} {k : Caller} (h : Admits g n (.counting k l f))
    (hn : n ≤ (g.tasksLaunched - g.tasksFinished).toNat) (first : Counter) :
    Admits g n (.counting k (g.load first l f).1 (g.load first l f).2) := by
  obtain ⟨hl, hf⟩ := h
  cases l <;> cases f <;> cases first <;> simp_all [TaskLauncher.load, Admits]

/-- The invariant of the limit. -/
structure Limited (max : UInt64) (s : System) : Prop where
  counted : Counted s
  limit : s.shared.maxParallel = max
  bound : launched s ≤ max.toNat
  admits : ∀ p ∈ s.locals, Admits s.shared (launched s) p

theorem Limited.sub_toNat {max : UInt64} {s : System} (h : Limited max s) :
    (s.shared.tasksLaunched - s.shared.tasksFinished).toNat = launched s :=
  h.counted.sub_toNat (Nat.lt_of_le_of_lt h.bound max.toNat_lt)

/-- What the thread that takes a step knows after it, unless it counts a task. A test that succeeds leaves
    room for one more. -/
theorem Admits.next {n : Nat} (h : Admits g n p) (htrans : Transition g p g' q)
    (hn : n ≤ (g.tasksLaunched - g.tasksFinished).toNat) (hp : atLaunch p = false) : Admits g' n q := by
  cases htrans with
  | @count first _ _ _ _ k hload =>
      have hadm := admits_load h hn first
      rw [hload] at hadm
      exact hadm
  | @countLow first _ _ l' f' k hload hlow =>
      have hadm := admits_load h hn first
      rw [hload] at hadm
      rw [hadm.1 l' rfl] at hlow
      exact Nat.lt_of_le_of_lt (hadm.2 f' rfl) (UInt64.lt_iff_toNat_lt.mp hlow)
  | countHigh k => exact admits_return g n k
  | takeNone k => exact admits_return g n k
  | take k hcons => exact h
  | launch k task => exact absurd hp (by simp [atLaunch])
  | _ => exact admits_of_not_deciding _ _ rfl

/-- Apart from `tasks_launched++`, a step launches no task. -/
theorem launched_next_le (hi : l[i]? = some p) (heff : Effect g p g' q) (hp : atLaunch p = false) :
    launched ⟨g', l.set i q⟩ ≤ launched ⟨g, l⟩ ∧ g'.tasksLaunched = g.tasksLaunched := by
  have hset := launched_set (g := g) hi g' q
  cases heff with
  | push k task => exact ⟨by simp only [launchedIn] at hset; omega, rfl⟩
  | pop k hcons => exact ⟨by simp only [launchedIn] at hset; omega, rfl⟩
  | launch k task => exact absurd hp (by simp [atLaunch])
  | submit k task =>
      refine ⟨?_, rfl⟩
      simp only [launchedIn, List.length_append, List.length_singleton] at hset
      omega
  | finish =>
      refine ⟨?_, rfl⟩
      simp only [launchedIn, launchedIn.unfinished] at hset
      omega
  | still hstill =>
      rw [hstill.pool, hstill.launchedIn] at hset
      exact ⟨by omega, hstill.tasksLaunched⟩

theorem exists_of_atLaunch (h : atLaunch p = true) : ∃ k task, p = .launching k task := by
  cases p with
  | launching k task => exact ⟨k, task, rfl⟩
  | _ => exact absurd h (by simp [atLaunch])

theorem Limited.next {max : UInt64} (h : Limited max ⟨g, l⟩) (hi : l[i]? = some p)
    (htrans : Transition g p g' q) (halone : LaunchesAlone ⟨g, l⟩ (.thread i c)) :
    Limited max ⟨g', l.set i q⟩ := by
  have hmax := htrans.maxParallel
  have hself := h.admits p (List.mem_of_getElem? hi)
  by_cases hp : atLaunch p = true
  · have hothers := halone (by rw [hi]; exact hp)
    obtain ⟨k, task, rfl⟩ := exists_of_atLaunch hp
    have hset := launched_set (g := g) hi g' q
    refine ⟨h.counted.next hi htrans.effect, hmax.trans h.limit, ?_, ?_⟩
    · have hroom : launched ⟨g, l⟩ < g.maxParallel.toNat := hself
      have hlimit : g.maxParallel = max := h.limit
      rw [hlimit] at hroom
      cases htrans
      simp only [launchedIn] at hset
      omega
    · intro r hr
      obtain ⟨j, hj⟩ := List.mem_iff_getElem?.mp hr
      -- no other thread is deciding, so none knows anything the step could spoil
      rcases getElem?_set_cases hj with ⟨-, rfl⟩ | ⟨hne, hj⟩
      · cases htrans
        exact True.intro
      · exact admits_of_not_deciding _ _ (hothers r (List.mem_eraseIdx_iff_getElem?.mpr ⟨j, hne, hj⟩))
  · rw [Bool.not_eq_true] at hp
    obtain ⟨hle, hl⟩ := launched_next_le hi htrans.effect hp
    refine ⟨h.counted.next hi htrans.effect, hmax.trans h.limit, Nat.le_trans hle h.bound, ?_⟩
    intro r hr
    rcases List.mem_or_eq_of_mem_set hr with hr | rfl
    · exact (h.admits r hr).mono hl hmax hle
    · exact (hself.next htrans h.sub_toNat.ge hp).mono rfl rfl hle

theorem Limited.step {max : UInt64} {s t : System} {input : Input} (h : Limited max s)
    (halone : LaunchesAlone s input) (hstep : threads.step s input = some t) : Limited max t := by
  have hcounted := h.counted.step hstep
  obtain ⟨e, g, ps, -, he, rfl⟩ | ⟨i, c, p, g, q, rfl, hi, hnext, rfl⟩ := step_cases hstep
  · have hsame : launched ⟨g, s.locals ++ ps⟩ = launched s ∧ g.tasksLaunched = s.shared.tasksLaunched ∧
        g.maxParallel = s.shared.maxParallel ∧ ∀ p ∈ ps, deciding p = false := by
      obtain ⟨task, -, rfl, rfl⟩ | ⟨-, rfl, rfl⟩ | ⟨j, task, -, hj, rfl, rfl⟩ := event_cases he
      · exact ⟨by simp [launched, launchedIn, launchedIn.unfinished], rfl, rfl, by simp [deciding]⟩
      · exact ⟨by simp [launched], rfl, rfl, by simp⟩
      · exact ⟨launched_start hj, rfl, rfl, by simp [deciding]⟩
    obtain ⟨hlaunched, hl, hmax, hps⟩ := hsame
    refine ⟨hcounted, hmax.trans h.limit, by rw [hlaunched]; exact h.bound, ?_⟩
    intro p hp
    rcases List.mem_append.mp hp with hp | hp
    · exact (h.admits p hp).mono hl hmax hlaunched.le
    · exact admits_of_not_deciding _ _ (hps p hp)
  · exact h.next hi (next_cases hnext) halone

/-- **The limit is respected as long as threads decide one at a time.** In every run in which a task is
    counted as launched only while no other thread is deciding, at most `m_max_parallel` tasks are launched
    and unfinished in every state, and the difference of the counters is their number. -/
theorem launched_within_limit {maxParallel : UInt64} {inputs : List Input}
    (halone : Along threads.step LaunchesAlone (init maxParallel) inputs) :
    Always threads.step (fun s => launched s ≤ maxParallel.toNat ∧
      (s.shared.tasksLaunched - s.shared.tasksFinished).toNat = launched s) (init maxParallel) inputs :=
  halone.always (Limited maxParallel) Limited.step (fun h => ⟨h.bound, h.sub_toNat⟩)
    ⟨counted_init _, rfl, Nat.zero_le _, fun _ hp => absurd hp List.not_mem_nil⟩

/-- The run in which a task is launched twice, with the task still running in the end. -/
theorem relaunchedOnce_within_limit :
    Always threads.step (fun s => launched s ≤ (1 : UInt64).toNat ∧
      (s.shared.tasksLaunched - s.shared.tasksFinished).toNat = launched s) (init 1) relaunchedOnce :=
  launched_within_limit (by decide)

/-- Two tasks are added by two threads that take turns at every step. -/
def twoCallers : List Input :=
  [.event (.addTask 0), .event (.addTask 1)] ++ (List.replicate 5 [.thread 0 go, .thread 1 go]).flatten

theorem twoCallers_exceed_limit : ∃ s, run 1 twoCallers = some s ∧ ¬ launched s ≤ (1 : UInt64).toNat :=
  ⟨(run 1 twoCallers).get (by decide), (Option.some_get _).symm, by decide⟩

end TaskLauncher
end Threads
end Hiaux
