import Hiaux.Lib.Tokens
import Hiaux.Strings.Edits

/-!
# `Strings.Correctness.Squeezing` — runs of tabs and newlines

After an `erase` the next character is already at the position, and the loop of `removeRedundantDelimeters`
steps over it without looking (`scan`). A third delimiter of a run is kept that way, a character behind a run
does not reset `prev_delim`, and behind a run at the end there is nothing to step over. `inStep` says for which
strings all this does no harm.
-/

namespace Hiaux
namespace Strings

open Lib

/-- What the loop makes of the characters it has not reached yet, `none` if it steps past the end. -/
def scan (prevDelim : Bool) : Bytes → Option Bytes
  | [] => some []
  | c :: s =>
      if isDelimeter c && prevDelim then
        match s with
        | [] => none
        | d :: s => (scan prevDelim s).map (d :: ·)
      else (scan (isDelimeter c) s).map (c :: ·)

/-- What the loop knows of the character before: it was looked at and is no delimiter, it is a delimiter, or it
    is no delimiter and was stepped over. -/
inductive Before where
  | other
  | delim
  | steppedOver
deriving DecidableEq, Repr

namespace Before

/-- `prev_delim` after such a character. -/
def prevDelim : Before → Bool
  | other => false
  | delim | steppedOver => true

/-- Whether the character is a delimiter. -/
def isDelim : Before → Bool
  | delim => true
  | other | steppedOver => false

/-- What is known of a character that the loop looks at. -/
def looked (c : UInt8) : Before := if isDelimeter c then delim else other

end Before

/-- The strings for which the loop stays in step. A run of delimiters behind a character that was looked at is a
    single one, or two with a character behind them, which is stepped over. Behind a character that was stepped
    over the first delimiter is erased: then it has to stand twice, and the second one counts as the first. -/
def inStep : Before → Bytes → Bool
  | _, [] => true
  | b, c :: s =>
      if isDelimeter c && b.prevDelim then
        match b, s with
        | _, [] => false
        | .steppedOver, d :: s => d == c && inStep .delim s
        | _, d :: s => !isDelimeter d && inStep .steppedOver s
      else inStep (.looked c) s

variable {s u : Bytes} {b : Before} {c d : UInt8} {prevDelim : Bool}

theorem scan_past (h : (isDelimeter c && prevDelim) = true) : scan prevDelim [c] = none := by
  rw [scan.eq_def]
  exact if_pos h

theorem scan_erase (h : (isDelimeter c && prevDelim) = true) (d : UInt8) (s : Bytes) :
    scan prevDelim (c :: d :: s) = (scan prevDelim s).map (d :: ·) := by
  rw [scan.eq_def]
  exact if_pos h

theorem scan_keep (h : (isDelimeter c && prevDelim) = false) (s : Bytes) :
    scan prevDelim (c :: s) = (scan (isDelimeter c) s).map (c :: ·) := by
  rw [scan.eq_def]
  exact if_neg (by simp [h])

/-! ## The loop -/

theorem removeRedundantFrom_end (s : Bytes) (prevDelim : Bool) :
    removeRedundantFrom s s.length prevDelim = some s := by
  rw [removeRedundantFrom, if_pos rfl]

theorem removeRedundantFrom_past (s : Bytes) (prevDelim : Bool) :
    removeRedundantFrom s (s.length + 1) prevDelim = none := by
  rw [removeRedundantFrom, if_neg (Nat.succ_ne_self _)]
  split
  · rfl
  · rename_i h
    exact absurd (List.getElem?_eq_some_iff.mp h).1 (by omega)

/-- One round of the loop. -/
theorem removeRedundantFrom_cons (u : Bytes) (c : UInt8) (s : Bytes) (prevDelim : Bool) :
    removeRedundantFrom (u ++ c :: s) u.length prevDelim =
      if isDelimeter c && prevDelim then removeRedundantFrom (u ++ s) (u.length + 1) prevDelim
      else removeRedundantFrom (u ++ [c] ++ s) (u ++ [c]).length (isDelimeter c) := by
  have hat : (u ++ c :: s)[u.length]? = some c := by simp
  have herase : (u ++ c :: s).eraseIdx u.length = u ++ s := by
    rw [List.eraseIdx_append_of_length_le (Nat.le_refl _), Nat.sub_self]
    rfl
  rw [removeRedundantFrom, if_neg (by simp)]
  split
  · rename_i h
    rw [hat] at h
    cases h
  · rename_i c' h
    obtain rfl : c = c' := Option.some.inj (hat.symm.trans h)
    rw [herase, List.append_assoc, List.singleton_append, List.length_append, List.length_singleton]
    cases isDelimeter c <;> cases prevDelim <;> rfl

/-- **The loop steps over the character behind an `erase`.** -/
theorem removeRedundantFrom_eq (prevDelim : Bool) (s u : Bytes) :
    removeRedundantFrom (u ++ s) u.length prevDelim = (scan prevDelim s).map (u ++ ·) := by
  induction prevDelim, s using scan.induct generalizing u with
  | case1 prevDelim =>
      rw [List.append_nil, removeRedundantFrom_end, scan, Option.map_some, List.append_nil]
  | case2 prevDelim c herase =>
      rw [removeRedundantFrom_cons, if_pos herase, List.append_nil, removeRedundantFrom_past,
        scan_past herase]
      rfl
  | case3 prevDelim c herase d s ih =>
      have hskip := ih (u ++ [d])
      rw [List.append_assoc, List.length_append] at hskip
      rw [removeRedundantFrom_cons, if_pos herase, scan_erase herase]
      refine hskip.trans ?_
      rw [Option.map_map]
      congr 1
      funext t
      exact List.append_assoc u [d] t
  | case4 prevDelim c s hkeep ih =>
      rw [removeRedundantFrom_cons, if_neg hkeep, ih, scan_keep (Bool.eq_false_iff.mpr hkeep),
        Option.map_map]
      congr 1
      funext t
      exact List.append_assoc u [c] t

theorem removeRedundantDelimeters_eq (s : Bytes) : removeRedundantDelimeters s = scan false s := by
  have heq := removeRedundantFrom_eq false s []
  rw [List.nil_append, List.length_nil] at heq
  rw [removeRedundantDelimeters, heq]
  cases scan false s <;> rfl

/-! ## Staying in step -/

theorem Before.looked_prevDelim (c : UInt8) : (Before.looked c).prevDelim = isDelimeter c := by
  unfold Before.looked
  cases isDelimeter c <;> rfl

theorem Before.looked_isDelim (c : UInt8) : (Before.looked c).isDelim = isDelimeter c := by
  unfold Before.looked
  cases isDelimeter c <;> rfl

theorem inStep_past (h : (isDelimeter c && b.prevDelim) = true) : inStep b [c] = false := by
  rw [inStep.eq_def]
  exact if_pos h

theorem inStep_steppedOver (hc : isDelimeter c = true) (d : UInt8) (s : Bytes) :
    inStep .steppedOver (c :: d :: s) = (d == c && inStep .delim s) := by
  rw [inStep.eq_def]
  exact if_pos (by rw [hc]; rfl)

theorem inStep_delim (hc : isDelimeter c = true) (d : UInt8) (s : Bytes) :
    inStep .delim (c :: d :: s) = (!isDelimeter d && inStep .steppedOver s) := by
  rw [inStep.eq_def]
  exact if_pos (by rw [hc]; rfl)

theorem inStep_looked (h : (isDelimeter c && b.prevDelim) = false) (s : Bytes) :
    inStep b (c :: s) = inStep (.looked c) s := by
  rw [inStep.eq_def]
  exact if_neg (by simp [h])

theorem map_cons_eq_some (c : UInt8) (x : Option Bytes) (t : Bytes) : x.map (c :: ·) = some (c :: t) ↔ x = some t := by
  cases x <;> simp

/-- **When the loop squeezes** what it has not reached yet. -/
theorem scan_iff (b : Before) (s : Bytes) :
    scan b.prevDelim s = some (squeezeFrom isDelimeter b.isDelim s) ↔ inStep b s = true := by
  induction b, s using inStep.induct with
  | case1 b => exact ⟨fun _ => rfl, fun _ => rfl⟩
  | case2 b c herase =>
      rw [scan_past herase, inStep_past herase]
      exact ⟨fun h => (by cases h), fun h => (by cases h)⟩
  | case3 c d s herase ih =>
      have hc : isDelimeter c = true := (Bool.and_eq_true_iff.mp herase).1
      rw [scan_erase herase, inStep_steppedOver hc, Bool.and_eq_true, beq_iff_eq, ← ih]
      show (scan true s).map (d :: ·) = some (squeezeFrom isDelimeter false (c :: d :: s)) ↔
        d = c ∧ scan true s = some (squeezeFrom isDelimeter true s)
      rw [squeezeFrom_first hc]
      by_cases hd : d = c
      · rw [hd, squeezeFrom, if_pos (by rw [hc]; rfl), map_cons_eq_some]
        exact (and_iff_right rfl).symm
      · refine iff_of_false (fun h => ?_) (fun h => hd h.1)
        obtain ⟨t, -, ht⟩ := Option.map_eq_some_iff.mp h
        exact hd (List.cons.inj ht).1
  | case4 b c herase d s hb ih =>
      have hc : isDelimeter c = true := (Bool.and_eq_true_iff.mp herase).1
      obtain rfl : b = .delim := by
        cases b
        · exact absurd herase (by simp [Before.prevDelim])
        · rfl
        · exact absurd rfl hb
      rw [scan_erase herase, inStep_delim hc, Bool.and_eq_true, ← ih]
      show (scan true s).map (d :: ·) = some (squeezeFrom isDelimeter true (c :: d :: s)) ↔
        _ ∧ scan true s = some (squeezeFrom isDelimeter false s)
      rw [squeezeFrom, if_pos (by rw [hc]; rfl)]
      cases hd : isDelimeter d with
      | false =>
          rw [squeezeFrom_keep hd, map_cons_eq_some]
          exact (and_iff_right rfl).symm
      | true =>
          -- the text squeezed behind a delimiter does not begin with one
          refine iff_of_false (fun h => ?_) (fun h => Bool.noConfusion h.1)
          obtain ⟨t, -, ht⟩ := Option.map_eq_some_iff.mp h
          have hhead := squeezeFrom_true_head (d :: s) ht.symm
          rw [hd] at hhead
          cases hhead
  | case5 b c s hkeep ih =>
      have hkeep : (isDelimeter c && b.prevDelim) = false := Bool.eq_false_iff.mpr hkeep
      have hsqueeze : squeezeFrom isDelimeter b.isDelim (c :: s) =
          c :: squeezeFrom isDelimeter (isDelimeter c) s := by
        rw [squeezeFrom, if_neg]
        cases b <;> simp_all [Before.isDelim, Before.prevDelim]
      rw [scan_keep hkeep, inStep_looked hkeep, hsqueeze, map_cons_eq_some, ← ih, Before.looked_prevDelim,
        Before.looked_isDelim]

/-- **When `removeRedundantDelimeters` squeezes runs.** -/
theorem removeRedundantDelimeters_iff (s : Bytes) :
    (∃ t, removeRedundantDelimeters s = some t ∧ Squeezes isDelimeter s t) ↔ inStep .other s = true := by
  rw [← scan_iff, removeRedundantDelimeters_eq]
  constructor
  · rintro ⟨t, ht, hsqueezes⟩
    rw [squeezes_iff.mp hsqueezes] at ht
    exact ht
  · intro h
    exact ⟨_, h, squeezes_iff.mpr rfl⟩

/-- **Three failures**: at the end of the string the position passes the end, a third delimiter stays, and a lone
    delimiter is taken for a redundant one. -/
theorem removeRedundantDelimeters_out_of_step :
    removeRedundantDelimeters (ascii "\t\t") = none ∧
      removeRedundantDelimeters (ascii "\t\t\tx") = some (ascii "\t\tx") ∧
      removeRedundantDelimeters (ascii "\t\ta\tb") = some (ascii "\tab") ∧
      ¬ ∃ t, removeRedundantDelimeters (ascii "\t\t") = some t ∧ Squeezes isDelimeter (ascii "\t\t") t := by
  have hpast : removeRedundantDelimeters (ascii "\t\t") = none := by
    rw [removeRedundantDelimeters_eq]
    decide +kernel
  refine ⟨hpast, ?_, ?_, ?_⟩
  · rw [removeRedundantDelimeters_eq]
    decide +kernel
  · rw [removeRedundantDelimeters_eq]
    decide +kernel
  · rintro ⟨t, ht, -⟩
    rw [hpast] at ht
    cases ht

end Strings
end Hiaux
