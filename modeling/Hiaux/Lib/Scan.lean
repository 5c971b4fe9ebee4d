import Mathlib.Data.List.Basic

/-!
# `Lib.Scan` — texts read part by part

A reader that goes on up to a character at which to stop (`scanTo`), and one for a part that may be missing and
has a mark in front of it if it is there (`marked`). Each undoes the writing of such a part.
-/

namespace Lib

variable {α : Type} {stop : α → Bool} {s u rest : List α}

/-- The elements up to the first at which to stop, and what follows them. -/
def scanTo (stop : α → Bool) (s : List α) : List α × List α :=
  (s.takeWhile fun c => !stop c, s.dropWhile fun c => !stop c)

/-- A part is followed by nothing, or by a character at which to stop. -/
def Ends (stop : α → Bool) (rest : List α) : Prop := ∀ c ∈ rest.head?, stop c = true

theorem ends_nil : Ends stop [] := fun _ h => absurd h (by simp)

theorem ends_cons {c : α} (h : stop c = true) : Ends stop (c :: rest) := by
  intro d hd
  obtain rfl := Option.mem_some_iff.mp hd
  exact h

/-- **A part that is followed by its end is read back.** -/
theorem scanTo_append (hu : ∀ c ∈ u, stop c = false) (hrest : Ends stop rest) : scanTo stop (u ++ rest) = (u, rest) := by
  have hpass : ∀ c ∈ u, (!stop c) = true := fun c hc => by rw [hu c hc]; rfl
  have hstop : ∀ c ∈ rest.head?, ¬ (!stop c) = true := fun c hc => by rw [hrest c hc]; decide
  rw [scanTo, List.takeWhile_append_of_pos hpass, List.dropWhile_append_of_pos hpass]
  cases rest with
  | nil => rw [List.takeWhile_nil, List.dropWhile_nil, List.append_nil]
  | cons c rest =>
      have hc := hstop c rfl
      rw [List.takeWhile_cons_of_neg (p := fun c => !stop c) hc, List.dropWhile_cons_of_neg (p := fun c => !stop c) hc,
        List.append_nil]

/-- **What is read is a part and its end.** -/
theorem scanTo_spec (stop : α → Bool) (s : List α) :
    s = (scanTo stop s).1 ++ (scanTo stop s).2 ∧ (∀ c ∈ (scanTo stop s).1, stop c = false) ∧ Ends stop (scanTo stop s).2 := by
  unfold scanTo
  refine ⟨List.takeWhile_append_dropWhile.symm, ?_, ?_⟩
  · intro c hc
    simpa using List.all_eq_true.mp List.all_takeWhile c hc
  · intro c hc
    have hne : s.dropWhile (fun c => !stop c) ≠ [] := by
      intro hnil
      rw [hnil] at hc
      exact absurd hc (by simp)
    have hhead := List.head_dropWhile_not (fun c => !stop c) hne
    rw [List.head?_eq_some_head hne] at hc
    obtain rfl := Option.mem_some_iff.mp hc
    simpa using hhead

/-! ## Parts that may be missing -/

section

variable [DecidableEq α] {m : α}

/-- A part with a mark in front of it, if it is there, and what follows it. -/
def marked (m : α) (stop : α → Bool) : List α → Option (List α) × List α
  | [] => (none, [])
  | c :: s => if c = m then (some (scanTo stop s).1, (scanTo stop s).2) else (none, c :: s)

/-- How such a part is written. -/
def withMark (m : α) : Option (List α) → List α
  | none => []
  | some u => m :: u

theorem marked_withMark {o : Option (List α)} (ho : ∀ u ∈ o, ∀ c ∈ u, stop c = false) (hrest : Ends stop rest)
    (hm : o = none → rest.head? ≠ some m) : marked m stop (withMark m o ++ rest) = (o, rest) := by
  cases o with
  | some u =>
      show (if m = m then (some (scanTo stop (u ++ rest)).1, (scanTo stop (u ++ rest)).2) else _) = _
      rw [if_pos rfl, scanTo_append (ho u rfl) hrest]
  | none =>
      cases rest with
      | nil => rfl
      | cons c rest =>
          have hc : c ≠ m := fun h => hm rfl (congrArg some h)
          show (if c = m then _ else _) = _
          rw [if_neg hc]

theorem marked_spec (m : α) (stop : α → Bool) (s : List α) :
    s = withMark m (marked m stop s).1 ++ (marked m stop s).2 ∧ (∀ u ∈ (marked m stop s).1, ∀ c ∈ u, stop c = false) ∧
      ((marked m stop s).1 = none → (marked m stop s).2.head? ≠ some m) ∧
      ((marked m stop s).1 ≠ none → Ends stop (marked m stop s).2) := by
  cases s with
  | nil => exact ⟨rfl, fun u hu => absurd hu (by simp [marked]), fun _ => by simp [marked], fun h => absurd rfl h⟩
  | cons c s =>
      rw [marked]
      split
      · rename_i hc
        obtain ⟨hsplit, hpass, hends⟩ := scanTo_spec stop s
        refine ⟨?_, ?_, fun h => absurd h (by simp), fun _ => hends⟩
        · rw [hc]
          exact congrArg (m :: ·) hsplit
        · intro u hu
          obtain rfl := Option.mem_some_iff.mp hu
          exact hpass
      · rename_i hc
        exact ⟨rfl, fun u hu => absurd hu (by simp), fun _ h => hc (Option.some.inj h), fun h => absurd rfl h⟩

end

end Lib
