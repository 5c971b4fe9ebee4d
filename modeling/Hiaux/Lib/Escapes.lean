import Mathlib.Data.List.Infix

/-!
# `Lib.Escapes` — letters made literal

In an escaped text the letter `esc` makes the next letter literal. `readEscapes` reads such a text in which the
letter `sym` may only stand escaped. `escapes` puts `esc` before every `sym`, and leaves every `esc` as it is: a
text comes back if there is no `esc` in it, and only then (`readEscapes_escapes_iff`).
-/

namespace Lib

variable {α : Type} [DecidableEq α]

/-- What is read, from the left to the right. There is no result if an unescaped `sym` is met, or if nothing
    follows an `esc`. -/
def readEscapes (esc sym : α) : List α → Option (List α)
  | [] => some []
  | [c] => if c = esc ∨ c = sym then none else some [c]
  | c :: d :: s =>
      if c = esc then (readEscapes esc sym s).map (d :: ·)
      else if c = sym then none
      else (readEscapes esc sym (d :: s)).map (c :: ·)

/-- The text with an `esc` before every `sym`. -/
def escapes (esc sym : α) (s : List α) : List α := s.flatMap (fun c => if c = sym then [esc, sym] else [c])

variable {esc sym c : α} {s u : List α}

/-! ## Reading -/

theorem readEscapes_dangling (esc sym : α) : readEscapes esc sym [esc] = none := by
  rw [readEscapes, if_pos (Or.inl rfl)]

theorem readEscapes_literal (esc sym d : α) (s : List α) :
    readEscapes esc sym (esc :: d :: s) = (readEscapes esc sym s).map (d :: ·) := by
  rw [readEscapes, if_pos rfl]

theorem readEscapes_sym (hsym : sym ≠ esc) (s : List α) : readEscapes esc sym (sym :: s) = none := by
  cases s with
  | nil => rw [readEscapes, if_pos (Or.inr rfl)]
  | cons d s => rw [readEscapes, if_neg hsym, if_pos rfl]

theorem readEscapes_plain (hesc : c ≠ esc) (hsym : c ≠ sym) (s : List α) :
    readEscapes esc sym (c :: s) = (readEscapes esc sym s).map (c :: ·) := by
  cases s with
  | nil => exact if_neg (not_or.mpr ⟨hesc, hsym⟩)
  | cons d s => rw [readEscapes, if_neg hesc, if_neg hsym]

/-! ## Escaping -/

@[simp] theorem escapes_nil (esc sym : α) : escapes esc sym [] = [] := rfl

theorem escapes_sym (esc sym : α) (s : List α) : escapes esc sym (sym :: s) = esc :: sym :: escapes esc sym s := by
  rw [escapes, List.flatMap_cons, if_pos rfl]
  rfl

theorem escapes_other (h : c ≠ sym) (esc : α) (s : List α) : escapes esc sym (c :: s) = c :: escapes esc sym s := by
  rw [escapes, List.flatMap_cons, if_neg h]
  rfl

theorem mem_escapes (h : c ∈ escapes esc sym s) : c = esc ∨ c ∈ s := by
  obtain ⟨d, hd, hc⟩ := List.mem_flatMap.mp h
  split at hc
  · rename_i hsym
    rcases List.mem_cons.mp hc with rfl | hc
    · exact Or.inl rfl
    · exact Or.inr (List.mem_singleton.mp hc ▸ hsym ▸ hd)
  · exact Or.inr (List.mem_singleton.mp hc ▸ hd)

/-- A text without `esc` comes back. -/
theorem readEscapes_escapes (h : esc ∉ s) : readEscapes esc sym (escapes esc sym s) = some s := by
  induction s with
  | nil => rfl
  | cons c s ih =>
      have hs : esc ∉ s := fun hs => h (List.mem_cons_of_mem c hs)
      by_cases hc : c = sym
      · subst hc
        rw [escapes_sym, readEscapes_literal, ih hs]
        rfl
      · have hesc : c ≠ esc := fun he => h (he ▸ List.mem_cons_self)
        rw [escapes_other hc, readEscapes_plain hesc hc, ih hs]
        rfl

/-- **What is read is never longer than the text**, and an `esc` of the text makes it shorter: it is spent on the
    letter behind it. -/
theorem length_of_readEscapes (hsym : sym ≠ esc) (h : readEscapes esc sym (escapes esc sym s) = some u) :
    u.length ≤ s.length ∧ (esc ∈ s → u.length < s.length) := by
  -- after an `esc`, the next letter has been read too
  induction hn : s.length using Nat.strong_induction_on generalizing s u with
  | _ n ih =>
      subst hn
      cases s with
      | nil =>
          obtain rfl := Option.some.inj h
          exact ⟨Nat.le_refl _, fun hmem => absurd hmem List.not_mem_nil⟩
      | cons c s =>
          have hlen : s.length < (c :: s).length := Nat.lt_succ_self _
          by_cases hc : c = esc
          · subst hc
            rw [escapes_other (Ne.symm hsym)] at h
            cases s with
            | nil => exact absurd (h.symm.trans (readEscapes_dangling c sym)) (by simp)
            | cons d s =>
                by_cases hd : d = sym
                · subst hd
                  rw [escapes_sym, readEscapes_literal, readEscapes_sym hsym] at h
                  cases h
                · rw [escapes_other hd, readEscapes_literal] at h
                  obtain ⟨v, hv, rfl⟩ := Option.map_eq_some_iff.mp h
                  have hle := (ih s.length (Nat.lt_trans (Nat.lt_succ_self _) hlen) hv rfl).1
                  simp only [List.length_cons]
                  omega
          · have hrest : ∃ v, readEscapes esc sym (escapes esc sym s) = some v ∧ u = c :: v := by
              by_cases hd : c = sym
              · subst hd
                rw [escapes_sym, readEscapes_literal] at h
                obtain ⟨v, hv, rfl⟩ := Option.map_eq_some_iff.mp h
                exact ⟨v, hv, rfl⟩
              · rw [escapes_other hd, readEscapes_plain hc hd] at h
                obtain ⟨v, hv, rfl⟩ := Option.map_eq_some_iff.mp h
                exact ⟨v, hv, rfl⟩
            obtain ⟨v, hv, rfl⟩ := hrest
            obtain ⟨hle, hlt⟩ := ih s.length hlen hv rfl
            refine ⟨Nat.succ_le_succ hle, fun hmem => Nat.succ_lt_succ (hlt ?_)⟩
            exact (List.mem_cons.mp hmem).resolve_left (Ne.symm hc)

/-- **Which texts come back.** -/
theorem readEscapes_escapes_iff (hsym : sym ≠ esc) :
    readEscapes esc sym (escapes esc sym s) = some s ↔ esc ∉ s := by
  constructor
  · intro h hmem
    exact absurd ((length_of_readEscapes hsym h).2 hmem) (Nat.lt_irrefl _)
  · exact readEscapes_escapes

end Lib
