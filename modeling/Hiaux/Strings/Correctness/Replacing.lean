import Hiaux.Strings.Edits

/-!
# `Strings.Correctness.Replacing` — replacing a word until it is gone

The loop of `replaceString` searches from the beginning after every replacement. If the first occurrence is
always the next one of the text (`inOrder`), it ends with the text in which every occurrence has been replaced
once. Otherwise a replacement has brought about an occurrence further to the left, and what the loop does there
it cannot take back. If the two words differ in a letter, every round lowers the text in the order of these
letters (`lowered_of_replaceString`). If the replacement is a beginning of the word, then there is a round for
every occurrence and no other (`length_of_replaceString`), and each leaves a text that is lower than it should be
if its overlaps go downwards (`inOrder_of_overlapsDown`).
-/

namespace Hiaux
namespace Strings

open Lib

variable {what to' str : Bytes} {fuel p : Nat}

/-! ## The loop -/

/-- A round of the loop replaces the first occurrence. -/
theorem replaceString_round (h : findWord what str = some p) (fuel : Nat) :
    replaceString what to' (fuel + 1) str = replaceString what to' fuel (replaceFirst what to' str) := by
  rw [replaceString, replaceFirst, h]

theorem replaceString_done (h : ¬ what <:+: str) (fuel : Nat) : replaceString what to' (fuel + 1) str = some str := by
  rw [replaceString, findWord_eq_none_iff.mpr h]

/-- **The loop ends only without an occurrence.** -/
theorem not_infix_of_replaceString {t : Bytes} (h : replaceString what to' fuel str = some t) : ¬ what <:+: t := by
  induction fuel generalizing str with
  | zero => cases h
  | succ fuel ih =>
      cases hfind : findWord what str with
      | none =>
          have hno := findWord_eq_none_iff.mp hfind
          rw [replaceString_done hno] at h
          obtain rfl := Option.some.inj h
          exact hno
      | some p =>
          rw [replaceString_round hfind] at h
          exact ih h

/-- **The loop does not end** if the replacement contains the word. -/
theorem replaceString_never_ends (hto : what <:+: to') (h : what <:+: str) (fuel : Nat) :
    replaceString what to' fuel str = none := by
  induction fuel generalizing str with
  | zero => rfl
  | succ fuel ih =>
      cases hfind : findWord what str with
      | none => exact absurd h (findWord_eq_none_iff.mp hfind)
      | some p =>
          rw [replaceString_round hfind]
          refine ih (hto.trans ?_)
          rw [replaceFirst, hfind]
          exact ⟨_, _, rfl⟩

/-! ## In order -/

/-- A round of the loop at an occurrence, with the text before it replaced already. -/
theorem replaceString_occurrence (front rest : Bytes) (fuel : Nat) :
    replaceString what to' (fuel + 1) (front ++ (what ++ rest)) =
      replaceString what to' fuel (replaceFirst what to' (front ++ what) ++ rest) := by
  obtain ⟨p, -, hfind⟩ := findWord_append_self_le what front
  rw [← List.append_assoc, replaceString_round (findWord_append hfind rest), replaceFirst_append hfind]

/-- **In order, the loop replaces every occurrence once.** `front` is the text that has been gone through. -/
theorem replaceString_of_inOrder (hwhat : what ≠ []) (front : Bytes) (skip : Nat) (str : Bytes)
    (h : inOrder what to' front skip str = true) :
    ∃ fuel, replaceString what to' fuel (front ++ str.drop skip) =
      some (front ++ replaceOccurrences what to' skip str) := by
  induction front, skip, str using inOrder.induct what to' with
  | case1 front skip =>
      rw [List.drop_nil, replaceOccurrences_nil, List.append_nil]
      exact ⟨1, replaceString_done ((inOrder_nil what to' front skip).mp h) 0⟩
  | case2 front skip c str ih =>
      rw [inOrder_skip] at h
      rw [List.drop_succ_cons, replaceOccurrences_skip]
      exact ih h
  | case3 front c str hocc ih =>
      obtain ⟨hfirst, hrest⟩ := (inOrder_occurrence hocc to' front).mp h
      obtain ⟨fuel, hfuel⟩ := ih hrest
      refine ⟨fuel + 1, ?_⟩
      rw [List.drop_zero, replaceOccurrences_occurrence hocc, cons_eq_append_drop hwhat hocc,
        replaceString_occurrence, hfirst, hfuel, List.append_assoc]
  | case4 front c str hocc ih =>
      rw [inOrder_letter hocc] at h
      obtain ⟨fuel, hfuel⟩ := ih h
      refine ⟨fuel, ?_⟩
      rw [List.drop_zero] at hfuel ⊢
      rw [replaceOccurrences_letter hocc, List.append_cons front c str,
        List.append_cons front c (replaceOccurrences what to' 0 str), hfuel]

/-! ## Out of order, by a word that differs -/

/-- **A run of the loop lowers the text** at the first letter in which the words differ at the first occurrence,
    or before it. -/
theorem lowered_of_replaceString {u x y t : Bytes} {a b : UInt8} (hab : a ≠ b)
    (hfind : findWord (u ++ a :: x) str = some p)
    (h : replaceString (u ++ a :: x) (u ++ b :: y) fuel str = some t) :
    ∃ k ≤ p + u.length, LoweredAt (fun d c => c = a ∧ d = b) k str t := by
  have htrans : ∀ c d e : UInt8, (d = a ∧ c = b) → (e = a ∧ d = b) → (e = a ∧ c = b) := fun c d e hcd hde =>
    absurd (hcd.1.symm.trans hde.2) hab
  induction fuel generalizing str p with
  | zero => cases h
  | succ fuel ih =>
      rw [replaceString_round hfind] at h
      have hround : LoweredAt (fun d c => c = a ∧ d = b) (p + u.length) str _ :=
        loweredAt_replaceFirst ⟨rfl, rfl⟩ hfind y
      cases hnext : findWord (u ++ a :: x) (replaceFirst (u ++ a :: x) (u ++ b :: y) str) with
      | none =>
          cases fuel with
          | zero => cases h
          | succ fuel =>
              rw [replaceString_done (findWord_eq_none_iff.mp hnext)] at h
              exact ⟨_, Nat.le_refl _, Option.some.inj h ▸ hround⟩
      | some q =>
          obtain ⟨k, -, hk⟩ := ih hnext h
          exact hround.trans htrans hk

/-- If neither word begins with the other and the loop ends with the text it should, then every round of it
    replaces the next occurrence. -/
theorem findWord_of_replaceString {front rest t : Bytes} (hto : ¬ to' <+: what) (hwhat : ¬ what <+: to')
    (h : replaceString what to' fuel (front ++ (what ++ rest)) = some (front ++ (to' ++ t))) :
    findWord what (front ++ what) = some front.length := by
  obtain ⟨u, a, b, x, y, hab, rfl, rfl⟩ := exists_first_difference hwhat hto
  obtain ⟨p, hp, hfind⟩ := findWord_append_self_le (u ++ a :: x) front
  rw [hfind, Option.some.injEq]
  by_contra hne
  have hlong := findWord_append hfind rest
  rw [List.append_assoc] at hlong
  obtain ⟨k, hk, c, d, ⟨rfl, rfl⟩, hold, hnew⟩ : ∃ k ≤ p + u.length, ∃ c d, (c = a ∧ d = b) ∧
      (front ++ ((u ++ a :: x) ++ rest))[k]? = some c ∧ (front ++ ((u ++ b :: y) ++ t))[k]? = some d := by
    obtain ⟨k, hk, hlowered⟩ := lowered_of_replaceString hab hlong h
    exact ⟨k, hk, hlowered.lower⟩
  -- the text should be the same up to the occurrence, and a bit further
  have hlt : k < (front ++ u).length := by
    rw [List.length_append]
    omega
  have hleft : front ++ ((u ++ c :: x) ++ rest) = front ++ u ++ (c :: x ++ rest) := by simp
  have hright : front ++ ((u ++ d :: y) ++ t) = front ++ u ++ (d :: y ++ t) := by simp
  rw [hleft, List.getElem?_append_left hlt] at hold
  rw [hright, List.getElem?_append_left hlt] at hnew
  exact hab (Option.some.inj (hold.symm.trans hnew))

/-- **If the loop replaces every occurrence once, then in order**, unless the word begins with what it is
    replaced by. -/
theorem inOrder_of_replaceString (hwhat : what ≠ []) (hto : to' <+: what → to' = what) (front : Bytes) (skip : Nat)
    (str : Bytes) (h : replaceString what to' fuel (front ++ str.drop skip) =
      some (front ++ replaceOccurrences what to' skip str)) :
    inOrder what to' front skip str = true := by
  induction front, skip, str using inOrder.induct what to' generalizing fuel with
  | case1 front skip =>
      rw [replaceOccurrences_nil, List.append_nil] at h
      exact (inOrder_nil what to' front skip).mpr (not_infix_of_replaceString h)
  | case2 front skip c str ih =>
      rw [replaceOccurrences_skip] at h
      rw [inOrder_skip]
      exact ih h
  | case3 front c str hocc ih =>
      rw [List.drop_zero, replaceOccurrences_occurrence hocc] at h
      have hno : ¬ what <:+: to' := fun hin =>
        not_infix_of_replaceString h (hin.trans ⟨front, _, List.append_assoc _ _ _⟩)
      have hnot : ¬ to' <+: what := fun hpre => hno (hto hpre ▸ List.infix_refl _)
      rw [cons_eq_append_drop hwhat hocc] at h
      have hfind := findWord_of_replaceString hnot (fun hpre => hno hpre.isInfix) h
      have hfirst : replaceFirst what to' (front ++ what) = front ++ to' := by
        rw [replaceFirst, hfind]
        simp
      refine (inOrder_occurrence hocc to' front).mpr ⟨hfirst, ?_⟩
      cases fuel with
      | zero => cases h
      | succ fuel =>
          rw [replaceString_occurrence, hfirst, ← List.append_assoc front to'] at h
          exact ih h
  | case4 front c str hocc ih =>
      rw [List.drop_zero, replaceOccurrences_letter hocc, List.append_cons front c str,
        List.append_cons front c (replaceOccurrences what to' 0 str)] at h
      rw [inOrder_letter hocc]
      exact ih h

/-! ## Out of order, by a shorter word -/

/-- **How long the text is in the end**, with a shorter word: every occurrence ahead costs a round, whatever has
    become of the text that has been gone through. -/
theorem length_of_replaceString (hwhat : what ≠ []) (hlen : to'.length ≤ what.length) {t : Bytes} (front : Bytes)
    (skip : Nat) (str : Bytes) (h : replaceString what to' fuel (front ++ str.drop skip) = some t) :
    t.length ≤ front.length + (replaceOccurrences what to' skip str).length := by
  induction fuel generalizing front skip str with
  | zero => cases h
  | succ fuel ihFuel =>
      induction skip, str using replaceOccurrences.induct what generalizing front with
      | case1 skip =>
          rw [List.drop_nil, List.append_nil] at h
          rw [replaceOccurrences_nil, List.length_nil]
          cases hfind : findWord what front with
          | none =>
              rw [replaceString_done (findWord_eq_none_iff.mp hfind)] at h
              obtain rfl := Option.some.inj h
              exact Nat.le_refl _
          | some p =>
              rw [replaceString_round hfind] at h
              have hround := length_replaceFirst hfind to'
              have hle := ihFuel (replaceFirst what to' front) 0 [] (by rwa [List.drop_nil, List.append_nil])
              rw [replaceOccurrences_nil, List.length_nil] at hle
              omega
      | case2 skip c str ih =>
          rw [replaceOccurrences_skip]
          exact ih front h
      | case3 c str hocc ih =>
          have hrest := h
          rw [List.drop_zero, cons_eq_append_drop hwhat hocc, replaceString_occurrence] at hrest
          rcases replaceFirst_cases what to' front with
            ⟨u, q, y, z, -, rfl, hq, hz, hround⟩ | ⟨front', hfront', hround⟩
          · rw [hround] at hrest
            have hle := ihFuel _ (what.length - 1) str hrest
            have hlenq := congrArg List.length hq
            have hlenz := congrArg List.length hz
            rw [replaceOccurrences_occurrence hocc]
            simp only [List.length_append] at hle hlenq hlenz ⊢
            omega
          · rw [hround, List.append_assoc, ← cons_eq_append_drop hwhat hocc] at hrest
            have hle := ihFuel front' 0 (c :: str) hrest
            omega
      | case4 c str hocc ih =>
          rw [List.drop_zero, List.append_cons front c str] at h
          have hle := ih (front ++ [c]) h
          rw [replaceOccurrences_letter hocc]
          simp only [List.length_append, List.length_cons, List.length_nil] at hle ⊢
          omega

/-- **In order, if the overlaps go downwards**: once the text gone through, `front'`, is lower than it should be,
    it stays lower. -/
theorem inOrder_of_overlapsDown {lt : UInt8 → UInt8 → Prop} (hdown : OverlapsDown lt what to')
    (htrans : ∀ a b c, lt a b → lt b c → lt a c) (hirrefl : ∀ a, ¬ lt a a) (hwhat : what ≠ [])
    (hlen : to'.length < what.length) (front front' : Bytes) (hfront : AtMost lt front front')
    (hsame : front'.length = front.length) (skip : Nat) (str : Bytes)
    (h : replaceString what to' fuel (front' ++ str.drop skip) =
      some (front ++ replaceOccurrences what to' skip str)) :
    front' = front ∧ inOrder what to' front skip str = true := by
  induction fuel generalizing front front' skip str with
  | zero => cases h
  | succ fuel ihFuel =>
      induction skip, str using replaceOccurrences.induct what generalizing front front' with
      | case1 skip =>
          rw [List.drop_nil, List.append_nil, replaceOccurrences_nil, List.append_nil] at h
          have hno := not_infix_of_replaceString h
          cases hfind : findWord what front' with
          | none =>
              rw [replaceString_done (findWord_eq_none_iff.mp hfind)] at h
              exact ⟨Option.some.inj h, (inOrder_nil what to' front skip).mpr hno⟩
          | some p =>
              rw [replaceString_round hfind] at h
              have hround := length_replaceFirst hfind to'
              have hle := length_of_replaceString hwhat (Nat.le_of_lt hlen) (replaceFirst what to' front') 0 []
                (by rwa [List.drop_nil, List.append_nil])
              rw [replaceOccurrences_nil, List.length_nil] at hle
              omega
      | case2 skip c str ih =>
          rw [replaceOccurrences_skip] at h
          rw [inOrder_skip]
          exact ih front front' hfront hsame h
      | case3 c str hocc ih =>
          have hrest := h
          rw [List.drop_zero, cons_eq_append_drop hwhat hocc, replaceString_occurrence,
            ← cons_eq_append_drop hwhat hocc] at hrest
          rcases replaceFirst_cases what to' front' with
            ⟨u, q, y, z, hy, rfl, hq, hz, hround⟩ | ⟨front'', hfront'', hround⟩
          · -- one of two overlapping occurrences: the text is lowered, if it changes
            have hover : AtMost lt (u ++ q ++ to') (u ++ (to' ++ z)) := by
              rw [List.append_assoc]
              exact (hdown q y z hy hq hz).append_left u
            have hnext : AtMost lt (front ++ to') (u ++ (to' ++ z)) :=
              (hfront.append_right to').trans htrans hover
            have hlenq := congrArg List.length hq
            have hlenz := congrArg List.length hz
            have hlenNext : (u ++ (to' ++ z)).length = (front ++ to').length := by
              simp only [List.length_append] at hsame hlenq hlenz ⊢
              omega
            rw [hround, replaceOccurrences_occurrence hocc, ← List.append_assoc front to'] at hrest
            obtain ⟨heq, horder⟩ := ihFuel _ _ hnext hlenNext (what.length - 1) str hrest
            rw [heq] at hover
            have hfixed := hover.antisymm htrans hirrefl (hfront.append_right to')
            obtain rfl : front = u ++ q := List.append_cancel_right hfixed
            exact ⟨rfl, (inOrder_occurrence hocc to' _).mpr ⟨hround.trans heq, horder⟩⟩
          · -- an occurrence in the text gone through: then there are too many
            rw [hround, List.append_assoc, ← cons_eq_append_drop hwhat hocc] at hrest
            have hle := length_of_replaceString hwhat (Nat.le_of_lt hlen) front'' 0 (c :: str) hrest
            rw [List.length_append] at hle
            omega
      | case4 c str hocc ih =>
          rw [List.drop_zero, replaceOccurrences_letter hocc, List.append_cons front' c str,
            List.append_cons front c (replaceOccurrences what to' 0 str)] at h
          obtain ⟨heq, horder⟩ := ih (front ++ [c]) (front' ++ [c]) (hfront.append_right [c])
            (by rw [List.length_append, List.length_append, hsame]) h
          rw [inOrder_letter hocc]
          exact ⟨List.append_cancel_right heq, horder⟩

/-! ## Each occurrence once -/

/-- Beyond this the order of the texts does not reach: the replacement is a proper beginning of the word, and the
    word overlaps with itself in one way that goes down and in another one that goes up. -/
def Twisted (what to' : Bytes) : Prop :=
  to' <+: what ∧ to' ≠ what ∧ ¬ OverlapsDown (· < ·) what to' ∧ ¬ OverlapsDown (· > ·) what to'

/-- **When `replaceString` replaces each occurrence once**: if the occurrences are replaced in order. Then the loop
    ends, and with the text it should. It does so only then, unless the words are twisted. -/
theorem replaceString_inOrder (hwhat : what ≠ []) (to' str : Bytes) :
    (inOrder what to' [] 0 str = true →
        ∃ fuel, replaceString what to' fuel str = some (replaceOccurrences what to' 0 str)) ∧
      ((∃ fuel, replaceString what to' fuel str = some (replaceOccurrences what to' 0 str)) →
        inOrder what to' [] 0 str = true ∨ Twisted what to') := by
  constructor
  · intro h
    exact replaceString_of_inOrder hwhat [] 0 str h
  · rintro ⟨fuel, h⟩
    by_cases hto : to' <+: what → to' = what
    · exact Or.inl (inOrder_of_replaceString hwhat hto [] 0 str h)
    · obtain ⟨hpre, hne⟩ := Classical.not_imp.mp hto
      have hlen : to'.length < what.length :=
        Nat.lt_of_le_of_ne hpre.length_le fun hlen => hne (hpre.eq_of_length hlen)
      by_cases hless : OverlapsDown (· < ·) what to'
      · exact Or.inl (inOrder_of_overlapsDown hless (fun _ _ _ => UInt8.lt_trans) UInt8.lt_irrefl hwhat hlen
          [] [] (Or.inl rfl) rfl 0 str h).2
      · by_cases hgreater : OverlapsDown (· > ·) what to'
        · exact Or.inl (inOrder_of_overlapsDown hgreater (fun _ _ _ hab hbc => UInt8.lt_trans hbc hab)
            UInt8.lt_irrefl hwhat hlen [] [] (Or.inl rfl) rfl 0 str h).2
        · exact Or.inr ⟨hpre, hne, hless, hgreater⟩

/-- `b` for `ab` in `cabcab`: the replacement brings no new occurrence about. -/
theorem replaceString_inOrder_words :
    ∃ fuel, replaceString (ascii "ab") (ascii "b") fuel (ascii "cabcab") =
      some (replaceOccurrences (ascii "ab") (ascii "b") 0 (ascii "cabcab")) :=
  (replaceString_inOrder (by decide +kernel) (ascii "b") (ascii "cabcab")).1 (by decide +kernel)

/-- **Two failures**: a replacement that contains the word keeps the loop going for ever, and a replacement that
    brings the word about is replaced again. -/
theorem replaceString_again :
    (∀ fuel, replaceString (ascii "a") (ascii "aa") fuel (ascii "a") = none) ∧
      replaceString (ascii "ab") [] 3 (ascii "aabb") = some [] ∧
      replaceOccurrences (ascii "ab") [] 0 (ascii "aabb") = ascii "ab" :=
  ⟨replaceString_never_ends (by decide +kernel) (by decide +kernel), by decide +kernel, by decide +kernel⟩

end Strings
end Hiaux
