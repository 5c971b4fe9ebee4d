import Mathlib.Data.List.Infix

/-!
# `Lib.Machine` — machines that consume an input buffer

A `Machine` reads from a buffer of input that arrives in pieces. A step looks at the control state and the
buffered input, may consume some of it and may emit outputs. The one law asked of a step is `mono`: a step
that is possible now stays possible, with the same effect, when more input is appended — the machine never
decides anything from the *end* of its buffer.

From that law alone:

* a run goes through unchanged under appended input (`Runs.append_input`);
* running to quiescence after every chunk is the same as running once over the whole input
  (`Feed.runs`), so the outputs do not depend on the chunking;
* a run to quiescence on more input extends the run on less (`Runs.extend`).

Steps also decrease a measure, so a machine always gets stuck in the end (`exists_runs_stuck`).
-/

namespace Lib

/-- A deterministic consumer of buffered input: control state `σ`, input symbols `β`, outputs `ω`. -/
structure Machine (σ β ω : Type) where
  /-- One step: the next state, what is left of the buffer, and what is emitted. -/
  step : σ → List β → Option (σ × List β × List ω)
  /-- A possible step stays possible, with the same effect, when input is appended. -/
  mono : ∀ {s b s' b' os} (d : List β), step s b = some (s', b', os) →
    step s (b ++ d) = some (s', b' ++ d, os)
  /-- What every step makes smaller. -/
  measure : σ → List β → Nat
  step_lt : ∀ {s b s' b' os}, step s b = some (s', b', os) → measure s' b' < measure s b

namespace Machine

variable {σ β ω : Type} (M : Machine σ β ω)

/-- No step is possible until more input arrives. -/
def Stuck (s : σ) (b : List β) : Prop := M.step s b = none

/-- A finite run, with the outputs it emits. -/
inductive Runs : σ → List β → List ω → σ → List β → Prop where
  | refl {s b} : Runs s b [] s b
  | head {s b s' b' os t c os'} :
      M.step s b = some (s', b', os) → Runs s' b' os' t c → Runs s b (os ++ os') t c

/-- Input arrives chunk by chunk; after every chunk the machine runs until it is stuck. -/
inductive Feed : σ → List β → List (List β) → List ω → σ → List β → Prop where
  | nil {s b} : Feed s b [] [] s b
  | cons {s b d ds os os' t c u e} :
      M.Runs s (b ++ d) os t c → M.Stuck t c → Feed t c ds os' u e →
      Feed s b (d :: ds) (os ++ os') u e

variable {M}

/-! ## Runs compose and go through under appended input -/

theorem Runs.single {s s' : σ} {b b' : List β} {os : List ω} (h : M.step s b = some (s', b', os)) :
    M.Runs s b os s' b' := by
  have hrun := Runs.head h Runs.refl
  rwa [List.append_nil] at hrun

theorem Runs.trans {s t u : σ} {b c e : List β} {os os' : List ω}
    (h : M.Runs s b os t c) (h' : M.Runs t c os' u e) : M.Runs s b (os ++ os') u e := by
  induction h with
  | refl => exact h'
  | head hstep _ ih =>
      rw [List.append_assoc]
      exact Runs.head hstep (ih h')

/-- **Appended input does not disturb a run**: it is still there when the run is over. -/
theorem Runs.append_input {s t : σ} {b c : List β} {os : List ω} (h : M.Runs s b os t c)
    (d : List β) : M.Runs s (b ++ d) os t (c ++ d) := by
  induction h with
  | refl => exact Runs.refl
  | head hstep _ ih => exact Runs.head (M.mono d hstep) ih

/-- A run is over, or begins with a step. -/
theorem Runs.cases_head {s t : σ} {b c : List β} {os : List ω} (h : M.Runs s b os t c) :
    (os = [] ∧ t = s ∧ c = b) ∨
      ∃ s' b' o os', M.step s b = some (s', b', o) ∧ os = o ++ os' ∧ M.Runs s' b' os' t c := by
  cases h with
  | refl => exact Or.inl ⟨rfl, rfl, rfl⟩
  | head hstep hrun => exact Or.inr ⟨_, _, _, _, hstep, rfl, hrun⟩

/-- Of two runs from the same point, one extends the other. -/
theorem Runs.comparable {s t u : σ} {b c e : List β} {os os' : List ω} (h : M.Runs s b os t c)
    (h' : M.Runs s b os' u e) :
    (∃ os'', os' = os ++ os'' ∧ M.Runs t c os'' u e) ∨ (∃ os'', os = os' ++ os'' ∧ M.Runs u e os'' t c) := by
  induction h generalizing os' with
  | refl => exact Or.inl ⟨os', rfl, h'⟩
  | head hstep hrun ih =>
      cases h' with
      | refl => exact Or.inr ⟨_, rfl, Runs.head hstep hrun⟩
      | head hstep' hrun' =>
          rw [hstep] at hstep'
          obtain ⟨rfl, rfl, rfl⟩ : _ ∧ _ ∧ _ := by simpa using hstep'
          rcases ih hrun' with ⟨os'', rfl, hr⟩ | ⟨os'', rfl, hr⟩
          · exact Or.inl ⟨os'', by rw [List.append_assoc], hr⟩
          · exact Or.inr ⟨os'', by rw [List.append_assoc], hr⟩

/-- A stuck state runs nowhere. -/
theorem Runs.of_stuck {s t : σ} {b c : List β} {os : List ω} (h : M.Runs s b os t c)
    (hs : M.Stuck s b) : os = [] ∧ t = s ∧ c = b := by
  cases h with
  | refl => exact ⟨rfl, rfl, rfl⟩
  | head hstep _ =>
      rw [Stuck, hstep] at hs
      exact absurd hs (by simp)

/-- A run that has got stuck extends every other run from the same point. -/
theorem Runs.extend {s t u : σ} {b c e : List β} {os os' : List ω}
    (h : M.Runs s b os t c) (h' : M.Runs s b os' u e) (hu : M.Stuck u e) :
    ∃ os'', os' = os ++ os'' ∧ M.Runs t c os'' u e := by
  rcases h.comparable h' with hextends | ⟨os'', rfl, hrest⟩
  · exact hextends
  · obtain ⟨rfl, rfl, rfl⟩ := hrest.of_stuck hu
    exact ⟨[], by simp, Runs.refl⟩

/-- Two runs to a stuck state agree in everything. -/
theorem Runs.unique {s t u : σ} {b c e : List β} {os os' : List ω}
    (h : M.Runs s b os t c) (ht : M.Stuck t c) (h' : M.Runs s b os' u e) (hu : M.Stuck u e) :
    os = os' ∧ t = u ∧ c = e := by
  obtain ⟨os'', rfl, hr⟩ := h.extend h' hu
  obtain ⟨rfl, rfl, rfl⟩ := hr.of_stuck ht
  exact ⟨(List.append_nil os).symm, rfl, rfl⟩

/-- **A machine gets stuck in the end**, since every step makes the measure smaller. -/
theorem exists_runs_stuck (s : σ) (b : List β) : ∃ os t c, M.Runs s b os t c ∧ M.Stuck t c := by
  generalize hn : M.measure s b = n
  induction n using Nat.strong_induction_on generalizing s b with
  | _ n ih =>
      cases hstep : M.step s b with
      | none => exact ⟨[], s, b, Runs.refl, hstep⟩
      | some r =>
          obtain ⟨s', b', os⟩ := r
          obtain ⟨os', t, c, hrun, hstuck⟩ := ih _ (hn ▸ M.step_lt hstep) s' b' rfl
          exact ⟨os ++ os', t, c, Runs.head hstep hrun, hstuck⟩

/-! ## Outputs seen through a function -/

/-- The same machine, with every output decoded by `f`. -/
def mapOut {ω' : Type} (f : ω → ω') (M : Machine σ β ω) : Machine σ β ω' where
  step s b := (M.step s b).map (fun r => (r.1, r.2.1, r.2.2.map f))
  mono := by
    intro s b s' b' os d h
    obtain ⟨⟨t, c, os'⟩, hr, he⟩ := Option.map_eq_some_iff.mp h
    obtain ⟨rfl, rfl, rfl⟩ : t = s' ∧ c = b' ∧ os'.map f = os := by simpa using he
    rw [M.mono d hr]
    rfl
  measure := M.measure
  step_lt := by
    intro s b s' b' os h
    obtain ⟨⟨t, c, os'⟩, hr, he⟩ := Option.map_eq_some_iff.mp h
    obtain ⟨rfl, rfl, rfl⟩ : t = s' ∧ c = b' ∧ os'.map f = os := by simpa using he
    exact M.step_lt hr

theorem step_mapOut {ω' : Type} {f : ω → ω'} {s s' : σ} {b b' : List β} {os : List ω}
    (h : M.step s b = some (s', b', os)) : (M.mapOut f).step s b = some (s', b', os.map f) :=
  congrArg (Option.map _) h

theorem Stuck.mapOut {ω' : Type} {f : ω → ω'} {s : σ} {b : List β} (h : M.Stuck s b) :
    (M.mapOut f).Stuck s b := congrArg (Option.map _) h

theorem Runs.mapOut {ω' : Type} {f : ω → ω'} {s t : σ} {b c : List β} {os : List ω}
    (h : M.Runs s b os t c) : (M.mapOut f).Runs s b (os.map f) t c := by
  induction h with
  | refl => exact Runs.refl
  | head hstep _ ih =>
      rw [List.map_append]
      exact Runs.head (step_mapOut hstep) ih

/-! ## Chunking -/

/-- Feeding chunk by chunk is one run over the whole input. -/
theorem Feed.runs {s u : σ} {b e : List β} {ds : List (List β)} {os : List ω}
    (h : M.Feed s b ds os u e) : M.Runs s (b ++ ds.flatten) os u e := by
  induction h with
  | nil =>
      rw [List.flatten_nil, List.append_nil]
      exact Runs.refl
  | @cons s b d ds os os' t c u e hrun _ _ ih =>
      rw [List.flatten_cons, ← List.append_assoc]
      exact (hrun.append_input ds.flatten).trans ih

/-- Feeding from a stuck state ends in a stuck state. -/
theorem Feed.stuck {s u : σ} {b e : List β} {ds : List (List β)} {os : List ω}
    (h : M.Feed s b ds os u e) (hs : M.Stuck s b) : M.Stuck u e := by
  induction h with
  | nil => exact hs
  | cons _ ht _ ih => exact ih ht

/-- Every input can be fed, in every chunking. -/
theorem exists_feed (s : σ) (b : List β) (ds : List (List β)) : ∃ os u e, M.Feed s b ds os u e := by
  induction ds generalizing s b with
  | nil => exact ⟨[], s, b, Feed.nil⟩
  | cons d ds ih =>
      obtain ⟨os, t, c, hrun, hstuck⟩ := M.exists_runs_stuck s (b ++ d)
      obtain ⟨os', u, e, hfeed⟩ := ih t c
      exact ⟨os ++ os', u, e, Feed.cons hrun hstuck hfeed⟩

/-! ## Dead states

A set of states without any step is never left. So a run that ends outside it has never been in it. -/

/-- No state outside `ok` has a step. -/
def DeadOutside (M : Machine σ β ω) (ok : σ → Prop) : Prop := ∀ s b, ¬ ok s → M.Stuck s b

theorem DeadOutside.mapOut {ω' : Type} {f : ω → ω'} {ok : σ → Prop} (h : M.DeadOutside ok) :
    (M.mapOut f).DeadOutside ok := fun s b hs => (h s b hs).mapOut

theorem Runs.ok_of_ok {ok : σ → Prop} (hdead : M.DeadOutside ok) {s t : σ} {b c : List β} {os : List ω}
    (h : M.Runs s b os t c) (ht : ok t) : ok s := by
  by_contra hs
  obtain ⟨_, rfl, _⟩ := h.of_stuck (hdead s b hs)
  exact hs ht

/-- The first step of a run that ends in an `ok` state leads to an `ok` state, from where the run goes
    on. -/
theorem Runs.ok_of_step {ok : σ → Prop} (hdead : M.DeadOutside ok) {s s' t : σ} {b b' c : List β}
    {os os' : List ω} (h : M.Runs s b os t c) (hstuck : M.Stuck t c) (ht : ok t)
    (hstep : M.step s b = some (s', b', os')) : ok s' ∧ ∃ os'', M.Runs s' b' os'' t c := by
  obtain ⟨os'', _, hr⟩ := (Runs.single hstep).extend h hstuck
  exact ⟨hr.ok_of_ok hdead ht, os'', hr⟩

/-- Until it emits something, the machine does not leave the `ok` states. -/
def Safe (M : Machine σ β ω) (ok : σ → Prop) (s : σ) (b : List β) : Prop :=
  ∀ t c, M.Runs s b [] t c → ok t

/-- A run that ends in an `ok` state was safe. -/
theorem Runs.safe {ok : σ → Prop} (hdead : M.DeadOutside ok) {s t : σ} {b c : List β} {os : List ω}
    (h : M.Runs s b os t c) (hstuck : M.Stuck t c) (ht : ok t) : M.Safe ok s b := by
  intro t' c' hsilent
  obtain ⟨os', -, hrest⟩ := hsilent.extend h hstuck
  exact hrest.ok_of_ok hdead ht

/-- A run that emits something was safe until then. -/
theorem Runs.safe_of_output {ok : σ → Prop} (hdead : M.DeadOutside ok) {s t : σ} {b c : List β} {o : ω}
    {os : List ω} (h : M.Runs s b (o :: os) t c) : M.Safe ok s b := by
  intro t' c' hsilent
  rcases hsilent.comparable h with ⟨os', heq, hrest⟩ | ⟨os', heq, -⟩
  · by_contra hnot
    obtain ⟨rfl, -, -⟩ := hrest.of_stuck (hdead t' c' hnot)
    exact absurd heq (by simp)
  · exact absurd heq (by simp)

/-- A silent step from a safe state leads to a safe state. -/
theorem Safe.step {ok : σ → Prop} {s s' : σ} {b b' : List β} (h : M.Safe ok s b)
    (hstep : M.step s b = some (s', b', [])) : ok s' ∧ M.Safe ok s' b' :=
  ⟨h s' b' (Runs.single hstep), fun t c hrun => h t c (Runs.head hstep hrun)⟩

/-- On its input, the machine does not leave the `ok` states, whatever it emits. -/
def Stays (M : Machine σ β ω) (ok : σ → Prop) (s : σ) (b : List β) : Prop :=
  ∀ os t c, M.Runs s b os t c → ok t

/-- A run to a stuck `ok` state stays in the `ok` states. -/
theorem Runs.stays {ok : σ → Prop} (hdead : M.DeadOutside ok) {s t : σ} {b c : List β} {os : List ω}
    (h : M.Runs s b os t c) (hstuck : M.Stuck t c) (ht : ok t) : M.Stays ok s b := by
  intro os' t' c' hrun
  obtain ⟨os'', -, hrest⟩ := hrun.extend h hstuck
  exact hrest.ok_of_ok hdead ht

/-- With less input, it stays there too. -/
theorem Stays.of_append {ok : σ → Prop} {s : σ} {b d : List β} (h : M.Stays ok s (b ++ d)) : M.Stays ok s b :=
  fun os t c hrun => h os t (c ++ d) (hrun.append_input d)

theorem Stays.of_runs {ok : σ → Prop} {s t : σ} {b c : List β} {os : List ω} (h : M.Stays ok s b)
    (hrun : M.Runs s b os t c) : M.Stays ok t c :=
  fun os' u e hrest => h (os ++ os') u e (hrun.trans hrest)

end Machine

end Lib
