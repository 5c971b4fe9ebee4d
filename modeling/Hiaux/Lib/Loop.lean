import Mathlib.Tactic.Common

/-!
# `Lib.Loop` — loops that need not end

A loop is given by one iteration: it goes round with a next state, or leaves with a result. `within` runs
it for a number of iterations at most; the loop ends (`Ends`) when some number is enough. A state that goes
round to itself is where a loop stays for ever (`not_ends_of_fixed`).
-/

namespace Lib
namespace Loop

variable {σ ρ : Type} {iterate : σ → σ ⊕ ρ}

/-- The loop, given up after a number of iterations. -/
def within (iterate : σ → σ ⊕ ρ) : Nat → σ → Option ρ
  | 0, _ => none
  | n + 1, s =>
      match iterate s with
      | .inl t => within iterate n t
      | .inr r => some r

/-- The loop leaves with a result after finitely many iterations. -/
def Ends (iterate : σ → σ ⊕ ρ) (s : σ) (r : ρ) : Prop := ∃ n, within iterate n s = some r

theorem within_succ_inl {s t : σ} (h : iterate s = .inl t) (n : Nat) :
    within iterate (n + 1) s = within iterate n t := by
  rw [within, h]

theorem within_succ_inr {s : σ} {r : ρ} (h : iterate s = .inr r) (n : Nat) :
    within iterate (n + 1) s = some r := by
  rw [within, h]

theorem ends_inl {s t : σ} {r : ρ} (h : iterate s = .inl t) : Ends iterate s r ↔ Ends iterate t r := by
  constructor
  · rintro ⟨n, hn⟩
    cases n with
    | zero => exact absurd hn (by simp [within])
    | succ n => exact ⟨n, (within_succ_inl h n).symm.trans hn⟩
  · rintro ⟨n, hn⟩
    exact ⟨n + 1, (within_succ_inl h n).trans hn⟩

theorem ends_inr {s : σ} {q r : ρ} (h : iterate s = .inr q) : Ends iterate s r ↔ q = r := by
  constructor
  · rintro ⟨n, hn⟩
    cases n with
    | zero => exact absurd hn (by simp [within])
    | succ n => exact Option.some.inj ((within_succ_inr h n).symm.trans hn)
  · rintro rfl
    exact ⟨1, within_succ_inr h 0⟩

/-- **A state that goes round to itself**: the loop does not end from there. -/
theorem not_ends_of_fixed {s : σ} {r : ρ} (h : iterate s = .inl s) : ¬ Ends iterate s r := by
  rintro ⟨n, hn⟩
  induction n with
  | zero => exact absurd hn (by simp [within])
  | succ n ih => exact ih ((within_succ_inl h n).symm.trans hn)

end Loop
end Lib
