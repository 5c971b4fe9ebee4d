import Mathlib.Data.List.Infix

/-!
# `Lib.Suffix` — longest suffixes in a prefix-closed set of words

The theory behind automata that match many words at once. The states are the words of a set `S` that
contains the empty word and every prefix of its members. Having read `u`, the automaton is in the state
`longest S u`, the longest suffix of `u` that lies in `S`.

* `longest_append_singleton`: reading one more letter needs only the state, not the text read so far;
* `longest_append_of_not_mem`: when the state cannot be extended by the letter, its own longest proper
  suffix decides — which is what a failure link stores;
* `suffixMatches_longest`: the words ending here are the words that are suffixes of the state.
-/

namespace Lib

variable {α : Type}

/-- The longest suffix of a word that satisfies `S` (the empty word if there is none). -/
def longest (S : List α → Prop) [DecidablePred S] : List α → List α
  | [] => []
  | a :: s => if S (a :: s) then a :: s else longest S s

/-- The longest *proper* suffix that satisfies `S`. -/
def longestProper (S : List α → Prop) [DecidablePred S] (s : List α) : List α := longest S s.tail

/-- A set of words usable as states: the empty word is one, and dropping the last letter stays inside. -/
structure PrefixClosed (S : List α → Prop) : Prop where
  nil : S []
  init : ∀ {s : List α} {c : α}, S (s ++ [c]) → S s

variable {S : List α → Prop} [DecidablePred S]

/-! ## `longest` is what its name says -/

theorem longest_of_mem {s : List α} (h : S s) : longest S s = s := by
  cases s with
  | nil => rfl
  | cons a s => exact if_pos h

theorem longest_cons_of_not_mem {a : α} {s : List α} (h : ¬ S (a :: s)) :
    longest S (a :: s) = longest S s := if_neg h

theorem longest_suffix (s : List α) : longest S s <:+ s := by
  induction s with
  | nil => exact List.suffix_refl _
  | cons a s ih =>
      unfold longest
      split
      · exact List.suffix_refl _
      · exact ih.trans (List.suffix_cons a s)

/-- The set may be given in another form. -/
theorem longest_congr {S' : List α → Prop} [DecidablePred S'] (h : ∀ s, S s ↔ S' s) (s : List α) :
    longest S s = longest S' s := by
  induction s with
  | nil => rfl
  | cons a s ih =>
      unfold longest
      rw [ih]
      exact if_congr (h (a :: s)) rfl rfl

theorem longest_mem (hnil : S []) (s : List α) : S (longest S s) := by
  induction s with
  | nil => exact hnil
  | cons a s ih =>
      unfold longest
      split
      · assumption
      · exact ih

/-- No other suffix in the set is longer. -/
theorem length_le_longest {s t : List α} (ht : S t) (hsuffix : t <:+ s) : t.length ≤ (longest S s).length := by
  induction s with
  | nil => exact hsuffix.length_le
  | cons a s ih =>
      by_cases h : S (a :: s)
      · rw [longest_of_mem h]
        exact hsuffix.length_le
      · rw [longest_cons_of_not_mem h]
        rcases List.suffix_cons_iff.mp hsuffix with rfl | hsuffix
        · exact absurd ht h
        · exact ih hsuffix

theorem longestProper_length_lt {s : List α} (h : s ≠ []) : (longestProper S s).length < s.length := by
  have hle := (longest_suffix (S := S) s.tail).length_le
  have hpos := List.length_pos_of_ne_nil h
  rw [List.length_tail] at hle
  unfold longestProper
  omega

/-! ## Reading one more letter -/

/-- **The state is enough**: what has been read may be replaced by its longest suffix in `S`. -/
theorem longest_append_singleton (hS : PrefixClosed S) (u : List α) (c : α) :
    longest S (u ++ [c]) = longest S (longest S u ++ [c]) := by
  induction u with
  | nil => rfl
  | cons a s ih =>
      by_cases h : S (a :: s)
      · rw [longest_of_mem h]
      · have hext : ¬ S (a :: (s ++ [c])) := fun hc => h (hS.init (by simpa using hc))
        rw [List.cons_append, longest_cons_of_not_mem hext, ih, longest_cons_of_not_mem h]

/-- A state that cannot be extended by the letter is replaced by its longest proper suffix. -/
theorem longest_append_of_not_mem (hS : PrefixClosed S) {s : List α} {c : α} (hs : s ≠ [])
    (h : ¬ S (s ++ [c])) : longest S (s ++ [c]) = longest S (longestProper S s ++ [c]) := by
  obtain ⟨a, t, rfl⟩ := List.exists_cons_of_ne_nil hs
  rw [List.cons_append, longest_cons_of_not_mem (by simpa using h), longestProper, List.tail_cons,
    longest_append_singleton hS]

/-- The empty state that cannot be extended stays empty. -/
theorem longest_singleton_of_not_mem {c : α} (h : ¬ S [c]) : longest S [c] = [] := by
  rw [longest_cons_of_not_mem h]
  rfl

/-- The longest proper suffix of an extended state, from that of the state. -/
theorem longestProper_append_singleton (hS : PrefixClosed S) {s : List α} {c : α} (hs : s ≠ []) :
    longestProper S (s ++ [c]) = longest S (longestProper S s ++ [c]) := by
  unfold longestProper
  rw [List.tail_append_of_ne_nil hs, longest_append_singleton hS]

/-! ## The words that end here -/

variable [DecidableEq α]

/-- The members of a list of words that are suffixes of `s`, with repetitions, longer ones first. -/
def suffixMatches (ws : List (List α)) : List α → List (List α)
  | [] => []
  | a :: s => ws.filter (· = a :: s) ++ suffixMatches ws s

omit [DecidablePred S] in
theorem filter_eq_nil_of_not_mem {ws : List (List α)} (hws : ∀ w ∈ ws, S w) {s : List α} (h : ¬ S s) :
    ws.filter (· = s) = [] := by
  rw [List.filter_eq_nil_iff]
  intro w hw he
  have hws' := hws w hw
  rw [of_decide_eq_true he] at hws'
  exact h hws'

/-- **Only suffixes of the state match**: whatever else was read is not part of any word. -/
theorem suffixMatches_longest {ws : List (List α)} (hws : ∀ w ∈ ws, S w) (u : List α) :
    suffixMatches ws (longest S u) = suffixMatches ws u := by
  induction u with
  | nil => rfl
  | cons a s ih =>
      by_cases h : S (a :: s)
      · rw [longest_of_mem h]
      · rw [longest_cons_of_not_mem h, ih, suffixMatches, filter_eq_nil_of_not_mem hws h]
        rfl

/-- The matches of a state are its own words and the matches of its longest proper suffix. -/
theorem suffixMatches_eq {ws : List (List α)} (hws : ∀ w ∈ ws, S w) {s : List α} (hs : s ≠ []) :
    suffixMatches ws s = ws.filter (· = s) ++ suffixMatches ws (longestProper S s) := by
  obtain ⟨a, t, rfl⟩ := List.exists_cons_of_ne_nil hs
  rw [suffixMatches, longestProper, List.tail_cons, suffixMatches_longest hws]

/-- Every match is a non-empty suffix. -/
theorem suffix_of_mem_suffixMatches {ws : List (List α)} {s w : List α} (h : w ∈ suffixMatches ws s) :
    w <:+ s ∧ w ≠ [] := by
  induction s with
  | nil => exact absurd h (by simp [suffixMatches])
  | cons a s ih =>
      rcases List.mem_append.mp h with h | h
      · have he : w = a :: s := by simpa using (List.mem_filter.mp h).2
        rw [he]
        exact ⟨List.suffix_refl _, List.cons_ne_nil a s⟩
      · exact ⟨(ih h).1.trans (List.suffix_cons a s), (ih h).2⟩

/-- Longer matches come first. -/
theorem suffixMatches_pairwise (ws : List (List α)) (s : List α) :
    (suffixMatches ws s).Pairwise (fun v w => w.length ≤ v.length) := by
  induction s with
  | nil => exact List.Pairwise.nil
  | cons a s ih =>
      refine List.pairwise_append.mpr ⟨?_, ih, ?_⟩
      · apply List.pairwise_of_forall_mem_list
        intro v hv w hw
        have hv' : v = a :: s := by simpa using (List.mem_filter.mp hv).2
        have hw' : w = a :: s := by simpa using (List.mem_filter.mp hw).2
        rw [hv', hw']
      · intro v hv w hw
        have hv' : v = a :: s := by simpa using (List.mem_filter.mp hv).2
        have hle := (suffix_of_mem_suffixMatches hw).1.length_le
        rw [hv', List.length_cons]
        omega

/-- A suffix is matched as often as it is listed, anything else is not matched. -/
theorem count_suffixMatches (ws : List (List α)) (s : List α) {w : List α} (hw : w ≠ []) :
    (suffixMatches ws s).count w = if w <:+ s then ws.count w else 0 := by
  induction s with
  | nil =>
      rw [if_neg (by simpa using hw)]
      rfl
  | cons a s ih =>
      rw [suffixMatches, List.count_append, ih]
      by_cases he : w = a :: s
      · subst he
        have hns : ¬ a :: s <:+ s := fun h => by
          have hle := h.length_le
          rw [List.length_cons] at hle
          omega
        rw [if_neg hns, if_pos (List.suffix_refl _), List.count_filter (by simp), Nat.add_zero]
      · have hz : (ws.filter (· = a :: s)).count w = 0 := by
          rw [List.count_eq_zero]
          intro h
          exact he (by simpa using (List.mem_filter.mp h).2)
        have hiff : w <:+ a :: s ↔ w <:+ s := by
          rw [List.suffix_cons_iff]
          exact or_iff_right he
        rw [hz, Nat.zero_add]
        simp only [hiff]

end Lib
