import Mathlib.Data.List.Infix

/-!
# `Lib.Run` — runs of a step function

A system is given by what one step does with an input: a next state, or none when the input does not fit
the state. A run takes a list of inputs. What the environment promises is a condition on each input in the
state that takes it (`Along`); an invariant kept by every step that meets the condition holds at the end of
every run that does (`Along.invariant`).
-/

namespace Lib

variable {σ ι : Type} {step : σ → ι → Option σ}

/-- A run: each input fits the state it meets. -/
def run (step : σ → ι → Option σ) (s : σ) : List ι → Option σ
  | [] => some s
  | input :: inputs => (step s input).bind (fun t => run step t inputs)

theorem run_append (s : σ) (xs ys : List ι) :
    run step s (xs ++ ys) = (run step s xs).bind (fun t => run step t ys) := by
  induction xs generalizing s with
  | nil => rfl
  | cons x xs ih =>
      show (step s x).bind _ = ((step s x).bind _).bind _
      rw [Option.bind_assoc]
      exact Option.bind_congr fun t _ => ih t

/-- Each input of a run meets a condition in the state that takes it. -/
def Along (step : σ → ι → Option σ) (P : σ → ι → Prop) (s : σ) : List ι → Prop
  | [] => True
  | input :: inputs => P s input ∧ ∀ t, step s input = some t → Along step P t inputs

/-- A run is checked input by input. -/
instance Along.decidable {P : σ → ι → Prop} [∀ s input, Decidable (P s input)] :
    ∀ (s : σ) (inputs : List ι), Decidable (Along step P s inputs)
  | _, [] => isTrue True.intro
  | s, input :: inputs =>
      match h : step s input with
      | none =>
          decidable_of_iff (P s input)
            ⟨fun hP => ⟨hP, fun t ht => absurd (h.symm.trans ht) (by simp)⟩, And.left⟩
      | some t =>
          have : Decidable (Along step P t inputs) := Along.decidable t inputs
          decidable_of_iff (P s input ∧ Along step P t inputs)
            ⟨fun hP => ⟨hP.1, fun u hu => Option.some.inj (h.symm.trans hu) ▸ hP.2⟩,
              fun hP => ⟨hP.1, hP.2 t h⟩⟩

/-- Conditions that are the same on every input are the same along a run. -/
theorem along_congr {P Q : σ → ι → Prop} (h : ∀ s input, P s input ↔ Q s input) {s : σ} {inputs : List ι} :
    Along step P s inputs ↔ Along step Q s inputs := by
  induction inputs generalizing s with
  | nil => exact Iff.rfl
  | cons input inputs ih => exact and_congr (h s input) (forall₂_congr fun _ _ => ih)

/-- A condition that implies another on every input implies it along a run. -/
theorem Along.imp {P Q : σ → ι → Prop} (h : ∀ s input, P s input → Q s input) {s : σ} {inputs : List ι}
    (hP : Along step P s inputs) : Along step Q s inputs := by
  induction inputs generalizing s with
  | nil => exact True.intro
  | cons input inputs ih => exact ⟨h s input hP.1, fun t ht => ih (hP.2 t ht)⟩

/-- **Invariants of runs.** -/
theorem Along.invariant {P : σ → ι → Prop} (Inv : σ → Prop)
    (hstep : ∀ {s input t}, Inv s → P s input → step s input = some t → Inv t)
    {s t : σ} {inputs : List ι} (h : Along step P s inputs) (hs : Inv s)
    (hrun : run step s inputs = some t) : Inv t := by
  induction inputs generalizing s with
  | nil => exact Option.some.inj hrun ▸ hs
  | cons input inputs ih =>
      obtain ⟨u, hu, hrun⟩ := Option.bind_eq_some_iff.mp hrun
      exact ih (h.2 u hu) (hstep hs h.1 hu) hrun

/-- Invariants of runs that take no promise. -/
theorem run_invariant (Inv : σ → Prop) (hstep : ∀ {s input t}, Inv s → step s input = some t → Inv t)
    {s t : σ} {inputs : List ι} (hs : Inv s) (hrun : run step s inputs = some t) : Inv t := by
  have halong : Along step (fun _ _ => True) s inputs := by
    clear hrun hs
    induction inputs generalizing s with
    | nil => exact True.intro
    | cons input inputs ih => exact ⟨True.intro, fun u _ => ih⟩
  exact halong.invariant Inv (fun h _ => hstep h) hs hrun

/-- **Runs of a system with a record beside it** are the runs of the system. -/
theorem run_map {σ' : Type} {step' : σ' → ι → Option σ'} (f : σ' → σ)
    (hstep : ∀ s input, step (f s) input = (step' s input).map f) (s : σ') (inputs : List ι) :
    run step (f s) inputs = (run step' s inputs).map f := by
  induction inputs generalizing s with
  | nil => rfl
  | cons input inputs ih =>
      show (step (f s) input).bind _ = ((step' s input).bind _).map f
      rw [hstep, Option.map_bind, Option.bind_map]
      exact Option.bind_congr fun t _ => ih t

/-- **A broken condition shows at the end**, if an input that breaks it leads to states that are not left again. -/
theorem along_of_not_lost {P : σ → ι → Prop} (Inv Lost : σ → Prop)
    (hkeep : ∀ {s input t}, Inv s → P s input → step s input = some t → Inv t)
    (hbreak : ∀ {s input t}, Inv s → ¬ P s input → step s input = some t → Lost t)
    (hlost : ∀ {s input t}, Lost s → step s input = some t → Lost t)
    {s t : σ} {inputs : List ι} (hs : Inv s) (hrun : run step s inputs = some t) (hend : ¬ Lost t) :
    Along step P s inputs := by
  induction inputs generalizing s with
  | nil => exact True.intro
  | cons input inputs ih =>
      obtain ⟨u, hu, hrun⟩ := Option.bind_eq_some_iff.mp hrun
      have hP : P s input := by
        by_contra hnot
        exact hend (run_invariant Lost hlost (hbreak hs hnot hu) hrun)
      refine ⟨hP, ?_⟩
      intro u' hu'
      obtain rfl := Option.some.inj (hu.symm.trans hu')
      exact ih (hkeep hs hP hu) hrun

/-- A property of every state a run goes through. -/
def Always (step : σ → ι → Option σ) (Good : σ → Prop) (s : σ) (inputs : List ι) : Prop :=
  ∀ xs t, xs <+: inputs → run step s xs = some t → Good t

theorem Along.of_prefix {P : σ → ι → Prop} {s : σ} {xs inputs : List ι} (hxs : xs <+: inputs)
    (h : Along step P s inputs) : Along step P s xs := by
  induction xs generalizing s inputs with
  | nil => exact True.intro
  | cons x xs ih =>
      obtain ⟨rest, rfl⟩ := hxs
      exact ⟨h.1, fun t ht => ih (List.prefix_append xs rest) (h.2 t ht)⟩

/-- **Safety from an invariant**: a run whose inputs all meet a condition stays where the invariant
    leads. -/
theorem Along.always {P : σ → ι → Prop} {Good : σ → Prop} (Inv : σ → Prop)
    (hstep : ∀ {s input t}, Inv s → P s input → step s input = some t → Inv t)
    (hgood : ∀ {s}, Inv s → Good s) {s : σ} {inputs : List ι} (h : Along step P s inputs) (hs : Inv s) :
    Always step Good s inputs :=
  fun _ _ hxs hrun => hgood ((h.of_prefix hxs).invariant Inv hstep hs hrun)

theorem always_nil_iff {Good : σ → Prop} {s : σ} : Always step Good s [] ↔ Good s := by
  constructor
  · intro h
    exact h [] s List.nil_prefix rfl
  · intro h xs t hxs hrun
    obtain rfl := List.prefix_nil.mp hxs
    exact Option.some.inj hrun ▸ h

theorem always_cons_iff {Good : σ → Prop} {s : σ} {input : ι} {inputs : List ι} :
    Always step Good s (input :: inputs) ↔
      Good s ∧ ∀ t, step s input = some t → Always step Good t inputs := by
  constructor
  · intro h
    refine ⟨h [] s List.nil_prefix rfl, ?_⟩
    intro t ht xs u hxs hrun
    refine h (input :: xs) u (List.cons_prefix_cons.mpr ⟨rfl, hxs⟩) ?_
    show (step s input).bind _ = some u
    rw [ht]
    exact hrun
  · rintro ⟨hs, h⟩ xs t hxs hrun
    cases xs with
    | nil => exact Option.some.inj hrun ▸ hs
    | cons x xs =>
        obtain ⟨rfl, hxs'⟩ := List.cons_prefix_cons.mp hxs
        obtain ⟨u, hu, hrun⟩ := Option.bind_eq_some_iff.mp hrun
        exact h u hu xs t hxs' hrun

/-- **Safety is decided step by step**: if a step from a good state leads to a good one exactly when its
    input meets a condition, a run stays good exactly when all its inputs do. -/
theorem always_iff_along {P : σ → ι → Prop} {Good : σ → Prop}
    (hstep : ∀ {s input}, Good s → ((∀ t, step s input = some t → Good t) ↔ P s input))
    {s : σ} {inputs : List ι} (hs : Good s) : Always step Good s inputs ↔ Along step P s inputs := by
  induction inputs generalizing s with
  | nil => exact always_nil_iff.trans (iff_of_true hs True.intro)
  | cons input inputs ih =>
      rw [always_cons_iff]
      constructor
      · rintro ⟨-, h⟩
        have hgood : ∀ t, step s input = some t → Good t := fun t ht => h t ht [] t List.nil_prefix rfl
        exact ⟨(hstep hs).mp hgood, fun t ht => (ih (hgood t ht)).mp (h t ht)⟩
      · rintro ⟨hP, h⟩
        exact ⟨hs, fun t ht => (ih ((hstep hs).mpr hP t ht)).mpr (h t ht)⟩

/-- The same, where the condition of a step takes an invariant that every step keeps. -/
theorem always_iff_along_of_invariant {P : σ → ι → Prop} {Good : σ → Prop} (Inv : σ → Prop)
    (hinv : ∀ {s input t}, Inv s → step s input = some t → Inv t)
    (hstep : ∀ {s input}, Inv s → Good s → ((∀ t, step s input = some t → Good t) ↔ P s input))
    {s : σ} {inputs : List ι} (hs : Inv s) (hgood : Good s) :
    Always step Good s inputs ↔ Along step P s inputs := by
  have hboth : ∀ {s input}, Inv s ∧ Good s →
      ((∀ t, step s input = some t → Inv t ∧ Good t) ↔ P s input) := by
    rintro s input ⟨hs, hgood⟩
    rw [← hstep hs hgood]
    exact ⟨fun h t ht => (h t ht).2, fun h t ht => ⟨hinv hs ht, h t ht⟩⟩
  have hiff : Always step (fun s => Inv s ∧ Good s) s inputs ↔ Along step P s inputs :=
    always_iff_along hboth ⟨hs, hgood⟩
  rw [← hiff]
  constructor
  · exact fun h xs t hxs hrun => ⟨run_invariant Inv hinv hs hrun, h xs t hxs hrun⟩
  · exact fun h xs t hxs hrun => (h xs t hxs hrun).2

end Lib
