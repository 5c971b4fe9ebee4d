import Hiaux.Threads.Correctness.Finish
import Hiaux.Threads.Correctness.Launch

/-!
# `Threads.Correctness.OnFinished` — when `m_onFinished` is called

`checkFinished` compares the counters, reads `no_more_tasks` and looks at the queue, one after the other and
without a lock. What it has read may be out of date when it is acted upon.

The call is right as long as no task is counted as launched during the test, and none is between the queue
and the counter when the queue is looked at (`onFinished_sound`). It does come, as long as
`setNoMoreTasks` is called while a task is unfinished or a thread still has the test before it
(`onFinished_complete`).
-/

namespace Hiaux
namespace Threads
namespace TaskLauncher

open Lib Lib.Threads

/-! ## The call is right -/

/-- Whether a thread is in an `addTask` that was called from outside. -/
def external : Pc → Bool
  | .pushing .relaunch _ => false
  | .pushing _ _ => true
  | .counting .addTask _ _ => true
  | .taking .addTask => true
  | .launching .addTask _ => true
  | .submitting .addTask _ => true
  | _ => false

/-- No call of `addTask` from outside begins or is under way after `setNoMoreTasks`. -/
def NoLateAddTask (s : System) : Input → Prop
  | .event (.addTask _) => s.shared.noMoreTasks = false
  | .event .setNoMoreTasks => ∀ p ∈ s.locals, external p = false
  | _ => True

/-- Whether a thread has begun to load the counters in `checkFinished` and has not yet looked at the
    queue. -/
def inTest : Pc → Bool
  | .comparing none none => false
  | .comparing _ _ => true
  | .testingNoMoreTasks => true
  | .testingQueue => true
  | _ => false

/-- A task is counted as launched only while no other thread is in the test and fewer than `2 ^ 64` tasks
    are launched; the queue is looked at only while no task is popped and not yet counted. -/
def TestsApart (s : System) : Input → Prop
  | .thread i _ =>
      (s.locals[i]?.any atLaunch = true →
        (∀ p ∈ s.locals.eraseIdx i, inTest p = false) ∧ launched s + 1 < 2 ^ 64) ∧
      (s.locals[i]? = some .testingQueue → popped s = 0)
  | .event _ => True

instance (s : System) : ∀ input, Decidable (NoLateAddTask s input)
  | .event (.addTask _) => inferInstanceAs (Decidable (s.shared.noMoreTasks = false))
  | .event .setNoMoreTasks => inferInstanceAs (Decidable (∀ p ∈ s.locals, external p = false))
  | .event (.start _) => isTrue True.intro
  | .thread _ _ => isTrue True.intro

instance (s : System) : ∀ input, Decidable (TestsApart s input)
  | .thread i _ => inferInstanceAs (Decidable ((s.locals[i]?.any atLaunch = true →
      (∀ p ∈ s.locals.eraseIdx i, inTest p = false) ∧ launched s + 1 < 2 ^ 64) ∧
      (s.locals[i]? = some .testingQueue → popped s = 0)))
  | .event _ => isTrue True.intro

/-- Nothing is left to do. -/
structure Quiet (s : System) : Prop where
  taskQ : s.shared.taskQ = []
  popped : popped s = 0
  launched : launched s = 0
  noMoreTasks : s.shared.noMoreTasks = true

/-- What a thread knows in the test and after it. -/
def Tested (s : System) : Pc → Prop
  | .comparing l f =>
      (∀ v ∈ l, v = s.shared.tasksLaunched) ∧ ∀ v ∈ f, v = s.shared.tasksLaunched → launched s = 0
  | .testingNoMoreTasks => launched s = 0
  | .testingQueue => launched s = 0 ∧ s.shared.noMoreTasks = true
  | .lockingFinish => Quiet s
  | .testingAllFinished => Quiet s
  | .settingAllFinished => Quiet s
  | .callingOnFinished => Quiet s
  | _ => True

/-- The invariant of the test. -/
structure Sound (s : System) : Prop where
  counted : Counted s
  bound : launched s < 2 ^ 64
  announced : Announced s.shared s.locals
  closed : s.shared.noMoreTasks = true → ∀ p ∈ s.locals, external p = false
  tested : ∀ p ∈ s.locals, Tested s p
  called : 0 < s.shared.onFinishedCalls → Quiet s

variable {g g' : TaskLauncher} {l : List Pc} {i : Nat} {p q : Pc} {c : Choice}

theorem external_return (k : Caller) : external k.return = false := by
  cases k <;> rfl

/-- A thread does not come into an `addTask` from outside. -/
theorem Transition.external (h : Transition g p g' q) (hp : external p = false) : external q = false := by
  cases h with
  | countHigh k => exact external_return k
  | takeNone k => exact external_return k
  | push k | count k | countLow k | take k | launch k | submit k =>
      cases k with
      | addTask => exact absurd hp.symm Bool.false_ne_true
      | _ => rfl
  | _ => rfl

theorem launchedIn_eq_zero (h : launched ⟨g, l⟩ = 0) (hp : p ∈ l) : launchedIn p = 0 := by
  have hle := le_total launchedIn hp
  simp only [launched] at h
  omega

theorem poppedIn_eq_zero (h : popped ⟨g, l⟩ = 0) (hp : p ∈ l) : poppedIn p = 0 := by
  have hle := le_total poppedIn hp
  simp only [popped] at h
  omega

/-- **Where nothing is left to do, nothing comes up.** -/
theorem Quiet.next (h : Quiet ⟨g, l⟩) (hi : l[i]? = some p) (htrans : Transition g p g' q)
    (hp : external p = false) : Quiet ⟨g', l.set i q⟩ := by
  have hmem := List.mem_of_getElem? hi
  have hlaunched := launchedIn_eq_zero h.launched hmem
  have hpopped := poppedIn_eq_zero h.popped hmem
  have htaskQ : g.taskQ = [] := h.taskQ
  have hno := htrans.noMoreTasks.trans h.noMoreTasks
  cases htrans.effect with
  | push k task =>
      cases k with
      | relaunch => exact absurd hlaunched (by simp [launchedIn, launchedIn.unfinished])
      | _ => exact absurd hp.symm Bool.false_ne_true
  | pop k hcons =>
      rw [htaskQ] at hcons
      exact absurd hcons (by simp)
  | launch k task => exact absurd hpopped (by simp [poppedIn])
  | submit k task => exact absurd hlaunched (by simp [launchedIn])
  | finish => exact absurd hlaunched (by simp [launchedIn])
  | still hstill =>
      have hset := launched_set (g := g) hi g' q
      have hpset := popped_set (g := g) hi g' q
      rw [h.launched, hstill.pool, hstill.launchedIn] at hset
      rw [h.popped, hstill.popped_after, hstill.popped_before] at hpset
      exact ⟨hstill.taskQ.trans htaskQ, by omega, by omega, hno⟩

/-- What holds in the test holds after another thread's step that counts no task as launched. -/
theorem Tested.mono {s t : System} {r : Pc} (h : Tested s r)
    (hl : t.shared.tasksLaunched = s.shared.tasksLaunched) (hle : launched t ≤ launched s)
    (hno : t.shared.noMoreTasks = s.shared.noMoreTasks) (hquiet : Quiet s → Quiet t) : Tested t r := by
  cases r with
  | comparing l f =>
      refine ⟨fun v hv => (h.1 v hv).trans hl.symm, fun v hv hvl => ?_⟩
      have := h.2 v hv (hvl.trans hl)
      omega
  | testingNoMoreTasks =>
      have hzero : launched s = 0 := h
      exact Nat.le_zero.mp (hzero ▸ hle)
  | testingQueue => exact ⟨Nat.le_zero.mp (h.1 ▸ hle), hno.trans h.2⟩
  | lockingFinish => exact hquiet h
  | testingAllFinished => exact hquiet h
  | settingAllFinished => exact hquiet h
  | callingOnFinished => exact hquiet h
  | _ => exact True.intro

theorem tested_none (s : System) : Tested s (.comparing none none) :=
  ⟨fun _ hv => absurd hv (by simp), fun _ hv => absurd hv (by simp)⟩

theorem tested_return (s : System) (k : Caller) : Tested s k.return := by
  cases k with
  | task => exact tested_none s
  | _ => exact True.intro

/-- A load in the test. -/
theorem Tested.load {s : System} {l f l' f' : Option UInt64} {first : Counter} (h : Tested s (.comparing l f))
    (hload : s.shared.load first l f = (l', f')) (hcounted : Counted s) (hbound : launched s < 2 ^ 64) :
    Tested s (.comparing l' f') := by
  -- equal counters mean that nothing is launched, since fewer than `2 ^ 64` tasks are
  have hzero : s.shared.tasksFinished = s.shared.tasksLaunched → launched s = 0 := by
    intro heq
    have hsub := hcounted.sub_toNat hbound
    rw [heq, UInt64.sub_self] at hsub
    exact hsub.symm
  obtain ⟨hl, hf⟩ := h
  show (∀ v ∈ l', v = s.shared.tasksLaunched) ∧ ∀ v ∈ f', v = s.shared.tasksLaunched → launched s = 0
  cases l <;> cases f <;> cases first <;> simp_all [TaskLauncher.load] <;> grind

/-- What the thread that takes a step knows after it, of the state before it. -/
theorem Tested.next {s : System} (h : Tested s p) (htrans : Transition s.shared p g' q)
    (hcounted : Counted s) (hbound : launched s < 2 ^ 64) (hpop : p = .testingQueue → popped s = 0) :
    Tested s q := by
  cases htrans with
  | compare hload => exact Tested.load h hload hcounted hbound
  | compareEq hload =>
      have hload' := Tested.load h hload hcounted hbound
      exact hload'.2 _ rfl (hload'.1 _ rfl)
  | noMore hno => exact ⟨h, hno⟩
  | empty hnil => exact ⟨hnil, hpop rfl, h.1, h.2⟩
  | lock => exact h
  | first => exact h
  | set => exact h
  | countHigh k => exact tested_return s k
  | takeNone k => exact tested_return s k
  | _ => exact True.intro

/-- A thread outside the test knows nothing that counting a task could spoil. -/
theorem tested_of_not_inTest {s t : System} {r : Pc} (h : Tested s r) (hr : inTest r = false)
    (hquiet : ¬ Quiet s) : Tested t r := by
  cases r with
  | comparing l f =>
      cases l with
      | some v => exact absurd hr.symm Bool.false_ne_true
      | none =>
          cases f with
          | some v => exact absurd hr.symm Bool.false_ne_true
          | none => exact tested_none t
  | testingNoMoreTasks => exact absurd hr.symm Bool.false_ne_true
  | testingQueue => exact absurd hr.symm Bool.false_ne_true
  | lockingFinish => exact absurd h hquiet
  | testingAllFinished => exact absurd h hquiet
  | settingAllFinished => exact absurd h hquiet
  | callingOnFinished => exact absurd h hquiet
  | _ => exact True.intro

/-- The calls made after a step are those made before it, unless the step is the call. -/
theorem Transition.onFinishedCalls (h : Transition g p g' q) :
    g'.onFinishedCalls = g.onFinishedCalls ∨ p = .callingOnFinished := by
  cases h with
  | call => exact Or.inr rfl
  | _ => exact Or.inl rfl

theorem Sound.next (h : Sound ⟨g, l⟩) (hi : l[i]? = some p) (htrans : Transition g p g' q)
    (happ : TestsApart ⟨g, l⟩ (.thread i c)) : Sound ⟨g', l.set i q⟩ := by
  have hmem := List.mem_of_getElem? hi
  have hself := h.tested p hmem
  have hno := htrans.noMoreTasks
  have hset := launched_set (g := g) hi g' q
  have hclosed : g'.noMoreTasks = true → ∀ r ∈ l.set i q, external r = false := by
    intro hg' r hr
    rcases List.mem_or_eq_of_mem_set hr with hr | rfl
    · exact h.closed (hno.symm.trans hg') r hr
    · exact htrans.external (h.closed (hno.symm.trans hg') p hmem)
  have hquiet : Quiet ⟨g, l⟩ → Quiet ⟨g', l.set i q⟩ :=
    fun hq => hq.next hi htrans (h.closed hq.noMoreTasks p hmem)
  have hcalled : 0 < g'.onFinishedCalls → Quiet ⟨g', l.set i q⟩ := by
    intro hpos
    rcases htrans.onFinishedCalls with heq | rfl
    · exact hquiet (h.called (heq ▸ hpos))
    · exact hquiet hself
  have hcounted := h.counted.next hi htrans.effect
  have hannounced := h.announced.next hi htrans
  by_cases hp : atLaunch p = true
  · obtain ⟨hothers, hbound⟩ := happ.1 (by rw [hi]; exact hp)
    obtain ⟨k, task, rfl⟩ := exists_of_atLaunch hp
    -- a task is popped, so no thread is past the test
    have hbusy : ¬ Quiet ⟨g, l⟩ := fun hq => absurd (poppedIn_eq_zero hq.popped hmem) (by simp [poppedIn])
    cases htrans
    simp only [launchedIn] at hset
    refine ⟨hcounted, by omega, hannounced, hclosed, ?_, hcalled⟩
    intro r hr
    obtain ⟨j, hj⟩ := List.mem_iff_getElem?.mp hr
    rcases getElem?_set_cases hj with ⟨-, rfl⟩ | ⟨hne, hj⟩
    · exact True.intro
    · exact tested_of_not_inTest (h.tested r (List.mem_of_getElem? hj))
        (hothers r (List.mem_eraseIdx_iff_getElem?.mpr ⟨j, hne, hj⟩)) hbusy
  · rw [Bool.not_eq_true] at hp
    obtain ⟨hle, hl⟩ := launched_next_le hi htrans.effect hp
    refine ⟨hcounted, Nat.lt_of_le_of_lt hle h.bound, hannounced, hclosed, ?_, hcalled⟩
    intro r hr
    have htested : Tested ⟨g, l⟩ r := by
      rcases List.mem_or_eq_of_mem_set hr with hr | rfl
      · exact h.tested r hr
      · exact hself.next htrans h.counted h.bound (fun hq => happ.2 (hq ▸ hi))
    exact htested.mono hl hle hno hquiet

/-- Where something is left to do, a thread may come that knows nothing yet. -/
theorem Sound.append {s : System} (h : Sound s) (hbusy : ¬ Quiet s)
    (hcounted : Counted ⟨g, s.locals ++ [p]⟩) (hannounced : Announced g (s.locals ++ [p]))
    (hlaunched : g.tasksLaunched = s.shared.tasksLaunched)
    (hle : launched ⟨g, s.locals ++ [p]⟩ ≤ launched s) (hno : g.noMoreTasks = s.shared.noMoreTasks)
    (hcalls : g.onFinishedCalls = s.shared.onFinishedCalls)
    (hexternal : s.shared.noMoreTasks = true → external p = false)
    (htested : Tested ⟨g, s.locals ++ [p]⟩ p) : Sound ⟨g, s.locals ++ [p]⟩ := by
  refine ⟨hcounted, Nat.lt_of_le_of_lt hle h.bound, hannounced, ?_, ?_, ?_⟩
  · intro hyes r hr
    rcases List.mem_append.mp hr with hr | hr
    · exact h.closed (hno.symm.trans hyes) r hr
    · rw [List.mem_singleton.mp hr]
      exact hexternal (hno.symm.trans hyes)
  · intro r hr
    rcases List.mem_append.mp hr with hr | hr
    · exact (h.tested r hr).mono hlaunched hle hno (fun hq => absurd hq hbusy)
    · rw [List.mem_singleton.mp hr]
      exact htested
  · exact fun hpos => absurd (h.called (hcalls ▸ hpos)) hbusy

theorem Sound.step {s t : System} {input : Input} (h : Sound s)
    (hok : NoLateAddTask s input ∧ TestsApart s input) (hstep : threads.step s input = some t) : Sound t := by
  have hcounted := h.counted.step hstep
  have hannounced := h.announced.step hstep
  obtain ⟨e, g, ps, rfl, he, rfl⟩ | ⟨i, c, p, g, q, rfl, hi, hnext, rfl⟩ := step_cases hstep
  · obtain ⟨task, rfl, rfl, rfl⟩ | ⟨rfl, rfl, rfl⟩ | ⟨j, task, rfl, hj, rfl, rfl⟩ := event_cases he
    · have hno : s.shared.noMoreTasks = false := hok.1
      have hbusy : ¬ Quiet s := fun hq => absurd (hno.symm.trans hq.noMoreTasks) (by simp)
      have hsame : launched ⟨s.shared, s.locals ++ [.pushing .addTask task]⟩ = launched s := by
        simp [launched, launchedIn, launchedIn.unfinished]
      exact h.append hbusy hcounted hannounced rfl hsame.le rfl rfl
        (fun hyes => absurd (hno.symm.trans hyes) (by simp)) True.intro
    · have hsame : launched ⟨{ s.shared with noMoreTasks := true }, s.locals ++ []⟩ = launched s := by
        simp [launched]
      have hquiet : Quiet s → Quiet ⟨{ s.shared with noMoreTasks := true }, s.locals ++ []⟩ :=
        fun hq => ⟨hq.taskQ, by simpa [popped] using hq.popped, hsame.trans hq.launched, rfl⟩
      refine ⟨hcounted, by rw [hsame]; exact h.bound, hannounced, ?_, ?_, fun hpos => hquiet (h.called hpos)⟩
      · intro _ r hr
        exact hok.1 r (by simpa using hr)
      · intro r hr
        rw [List.append_nil] at hr
        have htested := h.tested r hr
        cases r with
        | testingQueue => exact ⟨hsame.trans htested.1, rfl⟩
        | comparing l f => exact ⟨htested.1, fun v hv hvl => hsame.trans (htested.2 v hv hvl)⟩
        | testingNoMoreTasks => exact hsame.trans htested
        | lockingFinish => exact hquiet htested
        | testingAllFinished => exact hquiet htested
        | settingAllFinished => exact hquiet htested
        | callingOnFinished => exact hquiet htested
        | _ => exact True.intro
    · -- a task in the pool is launched and unfinished
      have hbusy : ¬ Quiet s := by
        intro hq
        have hlt : j < s.shared.pool.length := (List.getElem?_eq_some_iff.mp hj).1
        have hzero := hq.launched
        simp only [launched] at hzero
        omega
      exact h.append hbusy hcounted hannounced rfl (launched_start hj).le rfl rfl (fun _ => rfl) True.intro
  · exact h.next hi (next_cases hnext) hok.2

theorem sound_init (max : UInt64) : Sound (init max) where
  counted := counted_init max
  bound := by
    show 0 < 2 ^ 64
    decide
  announced := announced_init max
  closed := fun h => absurd h (by simp [init, new])
  tested := fun _ hp => absurd hp List.not_mem_nil
  called := fun h => absurd h (by simp [init, new])

/-- **`m_onFinished` is called at most once, and when all is done**, in every run in which no `addTask`
    from outside begins or is under way after `setNoMoreTasks` and in which the tests keep apart from the
    launches: from the call on, no task is queued, popped, or launched and unfinished. -/
theorem onFinished_sound {maxParallel : UInt64} {inputs : List Input}
    (hok : Along threads.step (fun s input => NoLateAddTask s input ∧ TestsApart s input)
      (init maxParallel) inputs) :
    Always threads.step (fun s => s.shared.onFinishedCalls ≤ 1 ∧
      (0 < s.shared.onFinishedCalls → s.shared.taskQ = [] ∧ popped s = 0 ∧ launched s = 0))
      (init maxParallel) inputs := by
  refine hok.always Sound Sound.step ?_ (sound_init maxParallel)
  intro s h
  exact ⟨h.announced.calls_le_one, fun hpos =>
    ⟨(h.called hpos).taskQ, (h.called hpos).popped, (h.called hpos).launched⟩⟩

/-- A task is launched twice; `setNoMoreTasks` is called before its second execution. -/
def relaunchedThenFinished : List Input :=
  [.event (.addTask 7)] ++ goes 0 8 ++ [.event (.start 0), .thread 1 ⟨.relaunch, .finished⟩] ++ goes 1 13 ++
    [.event .setNoMoreTasks, .event (.start 0)] ++ goes 2 14

theorem relaunchedThenFinished_sound :
    ∃ s, run 1 relaunchedThenFinished = some s ∧ s.shared.onFinishedCalls = 1 ∧ s.shared.taskQ = [] ∧
      popped s = 0 ∧ launched s = 0 := by
  refine ⟨(run 1 relaunchedThenFinished).get (by decide), (Option.some_get _).symm, by decide, ?_⟩
  exact (onFinished_sound (by decide) _ _ (List.prefix_refl relaunchedThenFinished)
    (Option.some_get (by decide)).symm).2 (by decide)

/-- A first task is finished and found the counters equal. Before it goes on, a second task is added and
    launched, and `setNoMoreTasks` is called. -/
def comparedTooEarly : List Input :=
  [.event (.addTask 0)] ++ goes 0 8 ++ [.event (.start 0)] ++ goes 1 7 ++ [.event (.addTask 1)] ++
    goes 2 8 ++ [.event .setNoMoreTasks] ++ goes 1 6

/-- `m_onFinished` is called while the second task is launched and unfinished. -/
theorem comparedTooEarly_unsound :
    Along threads.step NoLateAddTask (init 1) comparedTooEarly ∧
      ∃ s, run 1 comparedTooEarly = some s ∧ s.shared.onFinishedCalls = 1 ∧ ¬ launched s = 0 :=
  ⟨by decide, (run 1 comparedTooEarly).get (by decide), (Option.some_get _).symm, by decide, by decide⟩

/-! ## The call comes -/

/-- The tasks queued, popped, or launched and not finished. -/
def unfinished (s : System) : Nat := s.shared.taskQ.length + popped s + launched s

instance (g : TaskLauncher) (l f : Option UInt64) : Decidable (Fresh g l f) :=
  decidable_of_iff (l.all (· = g.tasksLaunched) = true ∧ f.all (· = g.tasksFinished) = true)
    (by cases l <;> cases f <;> simp [Fresh])

/-- Whether a thread has counted its task as finished and is going to read `no_more_tasks` in
    `checkFinished`, unless the counters change first. -/
def willTest (g : TaskLauncher) : Pc → Bool
  | .counting .task _ _ => true
  | .taking .task => true
  | .launching .task _ => true
  | .submitting .task _ => true
  | .comparing l f => Fresh g l f
  | .testingNoMoreTasks => true
  | _ => false

/-- `setNoMoreTasks` is called while a task is unfinished or a thread is going to read the flag. -/
def SetInTime (s : System) : Input → Prop
  | .event .setNoMoreTasks =>
      s.shared.noMoreTasks = false → 0 < unfinished s ∨ ∃ p ∈ s.locals, willTest s.shared p = true
  | _ => True

instance (s : System) : ∀ input, Decidable (SetInTime s input)
  | .event .setNoMoreTasks => inferInstanceAs (Decidable (s.shared.noMoreTasks = false →
      0 < unfinished s ∨ ∃ p ∈ s.locals, willTest s.shared p = true))
  | .event (.addTask _) | .event (.start _) | .thread _ _ => isTrue True.intro

/-- A thread that has read the flag and will call `m_onFinished`, or leaves that to another. -/
def pastFlag : Pc → Bool
  | .testingQueue => true
  | .lockingFinish => true
  | .testingAllFinished => true
  | .settingAllFinished => true
  | .callingOnFinished => true
  | _ => false

/-- A thread the call can be expected from. -/
def Announces (g : TaskLauncher) (p : Pc) : Prop := willTest g p = true ∨ pastFlag p = true

/-- The invariant: after `setNoMoreTasks`, the call has been made or is to be expected. -/
structure Complete (s : System) : Prop where
  counted : Counted s
  announced : Announced s.shared s.locals
  due : s.shared.noMoreTasks = true →
    0 < s.shared.onFinishedCalls ∨ 0 < unfinished s ∨ ∃ p ∈ s.locals, Announces s.shared p

/-- Behind the lock or the flag there is a call. -/
theorem Announced.expected (h : Announced g l) (hset : g.allTasksFinished = true ∨ g.finishLocked = true) :
    0 < g.onFinishedCalls ∨ ∃ p ∈ l, Announces g p := by
  have hat : ∀ pc, pastFlag pc = true → 0 < count pc l → ∃ p ∈ l, Announces g p := by
    intro pc hpc hpos
    obtain ⟨p, hp, hpos⟩ := exists_of_total_pos hpos
    have heq : p = pc := by
      by_contra hne
      simp [atPc, hne] at hpos
    exact ⟨p, hp, Or.inr (heq ▸ hpc)⟩
  have hflag : g.allTasksFinished = true → 0 < g.onFinishedCalls ∨ ∃ p ∈ l, Announces g p := by
    intro hall
    have hcalls := h.calls
    rw [hall, Bool.toNat_true] at hcalls
    by_cases hpos : 0 < g.onFinishedCalls
    · exact Or.inl hpos
    · exact Or.inr (hat .callingOnFinished rfl (by omega))
  rcases hset with hall | hlocked
  · exact hflag hall
  · rcases h.held hlocked with hall | hpos
    · exact hflag hall
    · by_cases htest : 0 < count .testingAllFinished l
      · exact Or.inr (hat .testingAllFinished rfl htest)
      · exact Or.inr (hat .settingAllFinished rfl (by omega))

/-- **A thread the call can be expected from brings it nearer**, while nothing is unfinished. -/
theorem Announces.next (h : Announces g p) (htrans : Transition g p g' q)
    (heq : g.tasksLaunched = g.tasksFinished) (hno : g.noMoreTasks = true) (hnil : g.taskQ = []) :
    Announces g' q ∨ 0 < g'.onFinishedCalls ∨ g'.allTasksFinished = true ∨ g'.finishLocked = true := by
  have hflag : pastFlag p = false → willTest g p = true := fun hp => h.resolve_right (by simp [hp])
  cases htrans with
  | count k | countLow k | take k | launch k | submit k =>
      cases k with
      | task => exact Or.inl (Or.inl rfl)
      | _ => exact absurd (hflag rfl) Bool.false_ne_true
  | countHigh k | takeNone k =>
      -- the loads of `checkFinished` come next
      cases k with
      | task => exact Or.inl (Or.inl (decide_eq_true (fresh_none g)))
      | _ => exact absurd (hflag rfl) Bool.false_ne_true
  | @compare first _ _ _ _ hload =>
      have hfresh := Fresh.load (of_decide_eq_true (hflag rfl)) first
      rw [hload] at hfresh
      exact Or.inl (Or.inl (decide_eq_true hfresh))
  | compareEq => exact Or.inl (Or.inl rfl)
  | @compareNe first _ _ l' f' hload hne =>
      have hfresh := Fresh.load (of_decide_eq_true (hflag rfl)) first
      rw [hload] at hfresh
      exact absurd ((hfresh.1 l' rfl).trans (heq.trans (hfresh.2 f' rfl).symm)) hne
  | noMore => exact Or.inl (Or.inr rfl)
  | more hmore => exact absurd (hno.symm.trans hmore) (by simp)
  | empty => exact Or.inl (Or.inr rfl)
  | nonempty hne => exact absurd hnil hne
  | lock => exact Or.inl (Or.inr rfl)
  | busy hlocked => exact Or.inr (Or.inr (Or.inr hlocked))
  | first => exact Or.inl (Or.inr rfl)
  | again hall => exact Or.inr (Or.inr (Or.inl hall))
  | set => exact Or.inl (Or.inr rfl)
  | call => exact Or.inr (Or.inl (Nat.succ_pos _))
  | relaunch | noRelaunch | finish | push k | unlock => exact absurd (hflag rfl) Bool.false_ne_true

/-- A step that changes no counter keeps what can be expected from the other threads. -/
theorem Announces.mono {r : Pc} (h : Announces g r) (hl : g'.tasksLaunched = g.tasksLaunched)
    (hf : g'.tasksFinished = g.tasksFinished) : Announces g' r := by
  refine h.imp (fun hwill => ?_) id
  cases r with
  | counting k => cases k <;> exact hwill
  | taking k => cases k <;> exact hwill
  | launching k => cases k <;> exact hwill
  | submitting k => cases k <;> exact hwill
  | comparing l f =>
      have hfresh : Fresh g l f := of_decide_eq_true hwill
      exact decide_eq_true ⟨fun v hv => (hfresh.1 v hv).trans hl.symm,
        fun v hv => (hfresh.2 v hv).trans hf.symm⟩
  | testingNoMoreTasks => rfl
  | _ => exact hwill

theorem Complete.next (h : Complete ⟨g, l⟩) (hi : l[i]? = some p) (htrans : Transition g p g' q) :
    Complete ⟨g', l.set i q⟩ := by
  have hannounced := h.announced.next hi htrans
  refine ⟨h.counted.next hi htrans.effect, hannounced, fun hno => ?_⟩
  have hno' : g.noMoreTasks = true := htrans.noMoreTasks.symm.trans hno
  have hset := launched_set (g := g) hi g' q
  have hpset := popped_set (g := g) hi g' q
  -- the effect of the step says where an unfinished task is after it
  cases htrans.effect with
  | push k task =>
      refine Or.inr (Or.inl ?_)
      simp only [unfinished, List.length_append, List.length_singleton]
      omega
  | pop k hcons =>
      refine Or.inr (Or.inl ?_)
      simp only [poppedIn] at hpset
      simp only [unfinished]
      omega
  | launch k task =>
      refine Or.inr (Or.inl ?_)
      simp only [launchedIn] at hset
      simp only [unfinished]
      omega
  | submit k task =>
      refine Or.inr (Or.inl ?_)
      simp only [unfinished, launched, List.length_append, List.length_singleton]
      omega
  | finish => exact Or.inr (Or.inr ⟨_, mem_set_self hi _, Or.inl rfl⟩)
  | still hstill =>
      rw [hstill.pool, hstill.launchedIn] at hset
      rw [hstill.popped_after, hstill.popped_before] at hpset
      have hsame : unfinished ⟨g', l.set i q⟩ = unfinished ⟨g, l⟩ := by
        simp only [unfinished, hstill.taskQ]
        omega
      by_cases hpos : 0 < unfinished ⟨g, l⟩
      · exact Or.inr (Or.inl (hsame ▸ hpos))
      -- nothing is unfinished, so the counters agree and stay as they are
      · have hnil : g.taskQ = [] := by
          refine List.length_eq_zero_iff.mp ?_
          simp only [unfinished] at hpos
          omega
        have hnone : launched ⟨g, l⟩ = 0 := by
          simp only [unfinished] at hpos
          omega
        have heq : g.tasksLaunched = g.tasksFinished := h.counted.eq_of_none hnone
        rcases h.due hno' with hcalls | hpos' | ⟨r, hr, hann⟩
        · rcases htrans.onFinishedCalls with hsame' | rfl
          · exact Or.inl (hsame' ▸ hcalls)
          · cases htrans
            exact Or.inl (Nat.succ_pos _)
        · exact absurd hpos' hpos
        · by_cases hself : Announces g p
          · rcases hself.next htrans heq hno' hnil with hq | hcalls | hset'
            · exact Or.inr (Or.inr ⟨q, mem_set_self hi q, hq⟩)
            · exact Or.inl hcalls
            · rcases hannounced.expected hset' with hcalls | hex
              · exact Or.inl hcalls
              · exact Or.inr (Or.inr hex)
          · refine Or.inr (Or.inr (exists_mem_set hi ?_ (fun hp => absurd hp hself) ⟨r, hr, hann⟩))
            exact fun r' _ hr' => hr'.mono hstill.tasksLaunched hstill.tasksFinished

theorem Complete.step {s t : System} {input : Input} (h : Complete s) (htime : SetInTime s input)
    (hstep : threads.step s input = some t) : Complete t := by
  have hcounted := h.counted.step hstep
  have hannounced := h.announced.step hstep
  obtain ⟨e, g, ps, rfl, he, rfl⟩ | ⟨i, c, p, g, q, rfl, hi, hnext, rfl⟩ := step_cases hstep
  · refine ⟨hcounted, hannounced, ?_⟩
    obtain ⟨task, rfl, rfl, rfl⟩ | ⟨rfl, rfl, rfl⟩ | ⟨j, task, rfl, hj, rfl, rfl⟩ := event_cases he
    · intro hno
      have hsame : unfinished ⟨s.shared, s.locals ++ [.pushing .addTask task]⟩ = unfinished s := by
        simp [unfinished, popped, poppedIn, launched, launchedIn, launchedIn.unfinished]
      rw [hsame]
      refine (h.due hno).imp id (Or.imp id ?_)
      rintro ⟨p, hp, hann⟩
      exact ⟨p, List.mem_append_left _ hp, hann⟩
    · intro _
      have hsame : unfinished ⟨{ s.shared with noMoreTasks := true }, s.locals ++ []⟩ = unfinished s := by
        simp [unfinished, popped, launched]
      rw [hsame]
      cases hno : s.shared.noMoreTasks with
      | true =>
          refine (h.due hno).imp id (Or.imp id ?_)
          rintro ⟨p, hp, hann⟩
          exact ⟨p, List.mem_append_left _ hp, hann.mono rfl rfl⟩
      | false =>
          refine Or.inr ((htime hno).imp id ?_)
          rintro ⟨p, hp, hwill⟩
          exact ⟨p, List.mem_append_left _ hp, Announces.mono (Or.inl hwill) rfl rfl⟩
    · intro _
      refine Or.inr (Or.inl ?_)
      simp only [unfinished, launched, total_append, total_singleton, launchedIn]
      omega
  · exact h.next hi (next_cases hnext)

/-- **`m_onFinished` is called in the end**, in every run in which `setNoMoreTasks` is called in time: in
    every state in which it has been called, no thread is inside the launcher, the queue is empty and every
    launched task has finished, the call has been made. -/
theorem onFinished_complete {maxParallel : UInt64} {inputs : List Input}
    (htime : Along threads.step SetInTime (init maxParallel) inputs) :
    Always threads.step (fun s => s.shared.noMoreTasks = true → Idle s → s.shared.taskQ = [] →
      launched s = 0 → 0 < s.shared.onFinishedCalls) (init maxParallel) inputs := by
  refine htime.always Complete Complete.step ?_
    ⟨counted_init _, announced_init _, fun h => absurd h (by simp [init, new])⟩
  intro s h hno hidle hnil hnone
  rcases h.due hno with hcalls | hpos | ⟨p, hp, hann⟩
  · exact hcalls
  · have hpop : popped s = 0 := total_eq_zero fun p hp => by rw [hidle p hp]; rfl
    simp only [unfinished, hnil, hpop, hnone] at hpos
    exact absurd hpos (by simp)
  · rw [hidle p hp] at hann
    rcases hann with hwill | hpast
    · exact absurd hwill Bool.false_ne_true
    · exact absurd hpast Bool.false_ne_true

theorem relaunchedThenFinished_complete :
    ∃ s, run 1 relaunchedThenFinished = some s ∧ 0 < s.shared.onFinishedCalls := by
  refine ⟨(run 1 relaunchedThenFinished).get (by decide), (Option.some_get _).symm, ?_⟩
  exact onFinished_complete (by decide) _ _ (List.prefix_refl relaunchedThenFinished)
    (Option.some_get (by decide)).symm (by decide) (by unfold Idle; decide) (by decide) (by decide)

/-- A task is added and runs to its end; then `setNoMoreTasks` is called. -/
def closedTooLate : List Input :=
  [.event (.addTask 0)] ++ goes 0 8 ++ [.event (.start 0)] ++ goes 1 8 ++ [.event .setNoMoreTasks]

/-- `m_onFinished` is not called, and nothing is left that could call it. -/
theorem closedTooLate_incomplete :
    Along threads.step NoLateAddTask (init 1) closedTooLate ∧
      ∃ s, run 1 closedTooLate = some s ∧ s.shared.noMoreTasks = true ∧ Idle s ∧ s.shared.taskQ = [] ∧
        launched s = 0 ∧ s.shared.tasksLaunched = 1 ∧ ¬ 0 < s.shared.onFinishedCalls :=
  ⟨by decide, (run 1 closedTooLate).get (by decide), (Option.some_get _).symm, by decide,
    by unfold Idle; decide, by decide, by decide, by decide, by decide⟩

end TaskLauncher
end Threads
end Hiaux
