import Hiaux.Tools.RegularTask
import Mathlib.Data.List.Chain

/-!
# `Tools.Correctness.Periods` — one execution a period

If no call passes the comparison without a ticket, only the call that has the lock gets further (`Guarded`): the
others leave `m_last_launch_ts` alone, so what the holder has compared still holds when it launches the task. Nothing
in `checkRun` sees to that, and two calls at the same time may both run the task (`overlapping_runs`).
-/

namespace Hiaux
namespace Tools
namespace RegularTask

open Lib Lib.Threads

/-! ## What a step can do -/

/-- The steps of `checkRun`. -/
inductive Transition : RegularTask → CheckRunPc → RegularTask → CheckRunPc → Prop
  | take {g} : g.locked = false → Transition g .trying { g with locked := true } (.reading true)
  | busy {g} : g.locked = true → Transition g .trying g (.reading false)
  | read {g} (ticket) : Transition g (.reading ticket) g (.comparing ticket g.clock)
  | pass {g} (ticket) {now} : g.due now = true → Transition g (.comparing ticket now) g (.updating ticket now)
  | fail {g} (ticket) {now} : g.due now = false → Transition g (.comparing ticket now) g (.releasing ticket)
  | launch {g} (ticket now) : Transition g (.updating ticket now)
      { g with lastLaunchTs := now, launches := g.launches ++ [now] } (.calling ticket)
  | call {g} (ticket) : Transition g (.calling ticket) g (.running ticket)
  | finish {g} (ticket) : Transition g (.running ticket) g (.releasing ticket)
  | release {g} : Transition g (.releasing true) { g with locked := false } .done
  | leave {g} : Transition g (.releasing false) g .done

variable {g g' : RegularTask} {l : List CheckRunPc} {i : Nat} {p q : CheckRunPc} {s t : System} {input : Input}

theorem transition_of_next (h : program.next g p () = some (g', q)) : Transition g p g' q := by
  have hnext : next g p () = some (g', q) := h
  cases p with
  | trying =>
      rw [next] at hnext
      split at hnext
      · rename_i hlocked
        obtain ⟨rfl, rfl⟩ := Prod.mk.inj (Option.some.inj hnext)
        exact .busy hlocked
      · rename_i hfree
        obtain ⟨rfl, rfl⟩ := Prod.mk.inj (Option.some.inj hnext)
        exact .take (Bool.eq_false_of_not_eq_true hfree)
  | reading ticket =>
      obtain ⟨rfl, rfl⟩ := Prod.mk.inj (Option.some.inj hnext)
      exact .read ticket
  | comparing ticket now =>
      obtain ⟨rfl, rfl⟩ := Prod.mk.inj (Option.some.inj hnext)
      cases hdue : g.due now with
      | true => exact .pass ticket hdue
      | false => exact .fail ticket hdue
  | updating ticket now =>
      obtain ⟨rfl, rfl⟩ := Prod.mk.inj (Option.some.inj hnext)
      exact .launch ticket now
  | calling ticket =>
      obtain ⟨rfl, rfl⟩ := Prod.mk.inj (Option.some.inj hnext)
      exact .call ticket
  | running ticket =>
      obtain ⟨rfl, rfl⟩ := Prod.mk.inj (Option.some.inj hnext)
      exact .finish ticket
  | releasing ticket =>
      obtain ⟨rfl, rfl⟩ := Prod.mk.inj (Option.some.inj hnext)
      cases ticket with
      | true => exact .release
      | false => exact .leave
  | done => cases hnext

/-! ## The call with the ticket -/

/-- Whether a call has the lock. -/
def holds : CheckRunPc → Nat
  | .reading true | .comparing true _ | .updating true _ | .calling true | .running true | .releasing true => 1
  | _ => 0

/-- Whether a call executes the task. -/
def runs : CheckRunPc → Nat
  | .running _ => 1
  | _ => 0

/-- A call that has passed the comparison, up to the end of the task. -/
def Inside : CheckRunPc → Prop
  | .updating _ _ | .calling _ | .running _ => True
  | _ => False

/-- What a call with the ticket has read is not older than the last launch, and what it has compared still holds. -/
def Compared (g : RegularTask) : CheckRunPc → Prop
  | .comparing true now => g.lastLaunchTs ≤ now ∧ now ≤ g.clock
  | .updating true now => g.lastLaunchTs.toNat + g.period.toNat < now.toNat ∧ now ≤ g.clock
  | _ => True

/-- Consecutive launches are more than a period apart. -/
def Apart (g : RegularTask) : Prop := g.launches.IsChain (fun a b => a.toNat + g.period.toNat < b.toNat)

/-- **What holds while no call passes the comparison without a ticket.** -/
structure Guarded (s : System) : Prop where
  locked : total holds s.locals = if s.shared.locked then 1 else 0
  inside : ∀ p ∈ s.locals, Inside p → holds p = 1
  compared : ∀ p ∈ s.locals, Compared s.shared p
  last : s.shared.lastLaunchTs = s.shared.launches.getLast?.getD 0
  clock : s.shared.lastLaunchTs ≤ s.shared.clock
  apart : Apart s.shared

theorem Guarded.init (period clock : UInt64) : Guarded (init period clock) :=
  ⟨rfl, fun _ h => absurd h List.not_mem_nil, fun _ h => absurd h List.not_mem_nil, rfl, UInt64.zero_le, .nil⟩

theorem Guarded.total_le (h : Guarded s) : total holds s.locals ≤ 1 := by
  rw [h.locked]
  split <;> omega

theorem compared_of_holds (g : RegularTask) (h : holds p = 0) : Compared g p := by
  cases p with
  | comparing ticket now =>
      cases ticket with
      | true => exact absurd h Nat.one_ne_zero
      | false => exact True.intro
  | updating ticket now =>
      cases ticket with
      | true => exact absurd h Nat.one_ne_zero
      | false => exact True.intro
  | _ => exact True.intro

/-- The clock goes on. -/
theorem Compared.tick {clock : UInt64} (h : Compared g p) (hle : g.clock ≤ clock) :
    Compared { g with clock := clock } p := by
  cases p with
  | comparing ticket now =>
      cases ticket with
      | true => exact ⟨h.1, UInt64.le_trans h.2 hle⟩
      | false => exact True.intro
  | updating ticket now =>
      cases ticket with
      | true => exact ⟨h.1, UInt64.le_trans h.2 hle⟩
      | false => exact True.intro
  | _ => exact True.intro

/-- A period has passed. -/
theorem lt_of_due {now : UInt64} (hle : g.lastLaunchTs ≤ now) (h : g.due now = true) :
    g.lastLaunchTs.toNat + g.period.toNat < now.toNat := by
  have hlt := UInt64.lt_iff_toNat_lt.mp (of_decide_eq_true h)
  rw [UInt64.toNat_sub_of_le _ _ hle] at hlt
  have hle' := UInt64.le_iff_toNat_le.mp hle
  omega

/-- A call that launches nothing goes on. -/
theorem Guarded.move (h : Guarded ⟨g, l⟩) (hi : l[i]? = some p) (locked : Bool)
    (hlocked : (if g.locked then 1 else 0) + holds q = (if locked then 1 else 0) + holds p)
    (hinside : Inside q → holds q = 1) (hcompared : Compared g q) :
    Guarded ⟨{ g with locked := locked }, l.set i q⟩ := by
  refine ⟨?_, ?_, ?_, h.last, h.clock, h.apart⟩
  · have htotal := total_set holds hi q
    have hbefore : total holds l = if g.locked then 1 else 0 := h.locked
    show total holds (l.set i q) = if locked then 1 else 0
    omega
  · intro r hr
    rcases List.mem_or_eq_of_mem_set hr with hr | rfl
    · exact h.inside r hr
    · exact hinside
  · intro r hr
    rcases List.mem_or_eq_of_mem_set hr with hr | rfl
    · exact h.compared r hr
    · exact hcompared

/-- **A launch** by the call that has the lock: no other call relies on the last launch. -/
theorem Guarded.launch (h : Guarded ⟨g, l⟩) {ticket : Bool} {now : UInt64}
    (hi : l[i]? = some (.updating ticket now)) :
    Guarded ⟨{ g with lastLaunchTs := now, launches := g.launches ++ [now] }, l.set i (.calling ticket)⟩ := by
  have hmem := List.mem_of_getElem? hi
  have hticket : ticket = true := by
    cases ticket with
    | true => rfl
    | false => exact absurd (h.inside _ hmem True.intro) Nat.zero_ne_one
  subst hticket
  obtain ⟨hdue, hclock⟩ : g.lastLaunchTs.toNat + g.period.toNat < now.toNat ∧ now ≤ g.clock := h.compared _ hmem
  refine ⟨?_, ?_, ?_, ?_, hclock, ?_⟩
  · have htotal : total holds (l.set i (.calling true)) + 1 = total holds l + 1 := total_set holds hi _
    have hbefore : total holds l = if g.locked then 1 else 0 := h.locked
    show total holds (l.set i (.calling true)) = if g.locked then 1 else 0
    omega
  · intro r hr
    rcases List.mem_or_eq_of_mem_set hr with hr | rfl
    · exact h.inside r hr
    · exact fun _ => rfl
  · intro r hr
    obtain ⟨j, hj⟩ := List.mem_iff_getElem?.mp hr
    rcases getElem?_set_cases hj with ⟨-, rfl⟩ | ⟨hji, hj⟩
    · exact True.intro
    · have hboth : 1 + holds r ≤ total holds l := add_le_total holds hi hj hji
      have hone : total holds l ≤ 1 := h.total_le
      exact compared_of_holds _ (by omega)
  · show now = (g.launches ++ [now]).getLast?.getD 0
    rw [List.getLast?_concat]
    rfl
  · refine List.isChain_append.mpr ⟨h.apart, .singleton _, ?_⟩
    intro a ha b hb
    obtain rfl := Option.some.inj hb
    have hlast : g.lastLaunchTs = g.launches.getLast?.getD 0 := h.last
    rw [Option.mem_def.mp ha, Option.getD_some] at hlast
    rwa [hlast] at hdue

/-- **A step of a call keeps it**, if the call does not pass the comparison without a ticket. -/
theorem Guarded.next (h : Guarded ⟨g, l⟩) (hi : l[i]? = some p) (htrans : Transition g p g' q)
    (hgate : ∀ now, p = .comparing false now → g.due now = false) : Guarded ⟨g', l.set i q⟩ := by
  have hmem := List.mem_of_getElem? hi
  cases htrans with
  | take hfree => exact h.move hi true (by rw [hfree]; rfl) False.elim True.intro
  | busy hlocked => exact h.move hi g.locked rfl False.elim True.intro
  | read ticket =>
      cases ticket with
      | true => exact h.move hi g.locked rfl False.elim ⟨h.clock, UInt64.le_refl _⟩
      | false => exact h.move hi g.locked rfl False.elim True.intro
  | @pass ticket now hdue =>
      cases ticket with
      | true =>
          obtain ⟨hle, hclock⟩ : g.lastLaunchTs ≤ now ∧ now ≤ g.clock := h.compared _ hmem
          exact h.move hi g.locked rfl (fun _ => rfl) ⟨lt_of_due hle hdue, hclock⟩
      | false => exact absurd (hdue.symm.trans (hgate now rfl)) (by decide)
  | fail ticket hdue => cases ticket <;> exact h.move hi g.locked rfl False.elim True.intro
  | launch ticket now => exact h.launch hi
  | call ticket =>
      have hholds := h.inside _ hmem True.intro
      cases ticket with
      | true => exact h.move hi g.locked rfl (fun _ => rfl) True.intro
      | false => exact absurd hholds Nat.zero_ne_one
  | finish ticket => cases ticket <;> exact h.move hi g.locked rfl False.elim True.intro
  | release =>
      have htaken : 1 ≤ total holds l := le_total holds hmem
      have hlocked : g.locked = true := by
        have hbefore : total holds l = if g.locked then 1 else 0 := h.locked
        by_contra hfree
        rw [if_neg hfree] at hbefore
        omega
      exact h.move hi false (by rw [hlocked]; rfl) False.elim True.intro
  | leave => exact h.move hi g.locked rfl False.elim True.intro

/-! ## Runs -/

/-- A step in which no call passes the comparison without a ticket. -/
def gated (s : System) : Input → Bool
  | .event _ => true
  | .thread i _ =>
      match s.locals[i]? with
      | some (.comparing false now) => !s.shared.due now
      | _ => true

theorem Guarded.step (h : Guarded s) (hgate : gated s input = true) (hstep : program.step s input = some t) :
    Guarded t := by
  obtain ⟨g, l⟩ := s
  rcases step_cases hstep with ⟨e, g', ps, rfl, he, rfl⟩ | ⟨i, c, p, g', q, rfl, hi, hnext, rfl⟩
  · cases e with
    | checkRun =>
        obtain ⟨rfl, rfl⟩ := Prod.mk.inj (Option.some.inj he)
        refine ⟨?_, ?_, ?_, h.last, h.clock, h.apart⟩
        · show total holds (l ++ [.trying]) = _
          rw [total_append]
          exact h.locked
        · intro p hp
          rcases List.mem_append.mp hp with hp | hp
          · exact h.inside p hp
          · obtain rfl := List.mem_singleton.mp hp
            exact False.elim
        · intro p hp
          rcases List.mem_append.mp hp with hp | hp
          · exact h.compared p hp
          · obtain rfl := List.mem_singleton.mp hp
            exact True.intro
    | tick clock =>
        have htick : (if g.clock ≤ clock then some ({ g with clock := clock }, []) else none) = some (g', ps) := he
        split at htick
        · rename_i hle
          obtain ⟨rfl, rfl⟩ := Prod.mk.inj (Option.some.inj htick)
          rw [List.append_nil]
          refine ⟨h.locked, h.inside, ?_, h.last, UInt64.le_trans h.clock hle, h.apart⟩
          exact fun p hp => (h.compared p hp).tick hle
        · cases htick
  · refine h.next hi (transition_of_next hnext) ?_
    rintro now rfl
    have hi' : l[i]? = some (.comparing false now) := hi
    rw [gated, hi'] at hgate
    simpa using hgate

/-- One execution a period: no two at a time, and consecutive launches more than a period apart. -/
structure OneAPeriod (s : System) : Prop where
  alone : total runs s.locals ≤ 1
  apart : Apart s.shared

theorem Guarded.oneAPeriod (h : Guarded s) : OneAPeriod s := by
  refine ⟨(total_mono fun p hp => ?_).trans h.total_le, h.apart⟩
  cases p with
  | running ticket => exact (h.inside _ hp True.intro).ge
  | _ => exact Nat.zero_le _

/-- **One execution a period**, in every run in which no call passes the comparison without a ticket. -/
theorem checkRun_oneAPeriod {period clock : UInt64} {inputs : List Input}
    (h : Along program.step (fun s input => gated s input = true) (init period clock) inputs) :
    Always program.step OneAPeriod (init period clock) inputs :=
  h.always Guarded Guarded.step Guarded.oneAPeriod (.init period clock)

/-- A call launches the task, another one comes while it runs and too early, and a third one a period later. -/
theorem checkRun_oneAPeriod_three_calls :
    Always program.step OneAPeriod (init 10 100) [.event .checkRun, .thread 0 (), .thread 0 (), .thread 0 (),
      .thread 0 (), .thread 0 (), .event .checkRun, .thread 1 (), .thread 1 (), .thread 1 (), .thread 0 (),
      .thread 0 (), .event (.tick 111), .event .checkRun, .thread 2 (), .thread 2 (), .thread 2 (), .thread 2 (),
      .thread 2 ()] :=
  checkRun_oneAPeriod (by decide +kernel)

/-- Two calls at the same time: one has the lock, both read the clock and pass the comparison. -/
def overlapping : List Input :=
  [.event .checkRun, .event .checkRun, .thread 0 (), .thread 1 (), .thread 0 (), .thread 1 (), .thread 0 (),
    .thread 1 (), .thread 0 (), .thread 1 (), .thread 0 (), .thread 1 ()]

/-- **Two calls at the same time both run the task**, with the same clock value recorded. -/
theorem overlapping_runs :
    run program.step (init 10 100) overlapping =
        some ⟨⟨true, 100, 10, 100, [100, 100]⟩, [.running true, .running false]⟩ ∧
      ¬ Always program.step OneAPeriod (init 10 100) overlapping := by
  have hrun : run program.step (init 10 100) overlapping =
      some ⟨⟨true, 100, 10, 100, [100, 100]⟩, [.running true, .running false]⟩ := by decide +kernel
  refine ⟨hrun, fun h => ?_⟩
  have halone := (h overlapping _ List.prefix_rfl hrun).alone
  exact absurd halone (by decide)

end RegularTask
end Tools
end Hiaux
