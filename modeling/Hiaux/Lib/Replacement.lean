import Mathlib.Data.List.Infix

/-!
# `Lib.Replacement` — replacing the occurrences of a word

`findWord` is the first occurrence of a word and `replaceFirst` replaces it. `replaceOccurrences` replaces, in
one pass, the occurrences that do not overlap, from the left to the right. Replacing the first occurrence again
and again need not come to the same (`inOrder`).

What a replacement does to a text is seen in an order of the texts by their first difference (`LoweredAt`): a word
that is lower lowers the text, and one of two overlapping occurrences may leave a lower text than the other
(`OverlapsDown`).
-/

namespace Lib

variable {α : Type} [DecidableEq α]

/-- The position of the first occurrence of `w`. -/
def findWord (w : List α) : List α → Option Nat
  | [] => if w = [] then some 0 else none
  | c :: s => if w <+: c :: s then some 0 else (findWord w s).map (· + 1)

/-- The text with the first occurrence of `w` replaced by `r`. -/
def replaceFirst (w r s : List α) : List α :=
  match findWord w s with
  | none => s
  | some p => s.take p ++ r ++ s.drop (p + w.length)

/-- The text with the occurrences of `w` replaced that do not overlap, taken from the left to the right. The
    number counts the letters that still belong to the occurrence found last. -/
def replaceOccurrences (w r : List α) : Nat → List α → List α
  | _, [] => []
  | skip + 1, _ :: s => replaceOccurrences w r skip s
  | 0, c :: s =>
      if w <+: c :: s then r ++ replaceOccurrences w r (w.length - 1) s
      else c :: replaceOccurrences w r 0 s

/-- Whether the first occurrence is always the next one of the text. `front` is the text so far with its
    occurrences replaced: behind it, at each occurrence, replacing the first `w` of `front ++ w` replaces this
    occurrence, and at the end there is no occurrence left. -/
def inOrder (w r front : List α) : Nat → List α → Bool
  | _, [] => !decide (w <:+: front)
  | skip + 1, _ :: s => inOrder w r front skip s
  | 0, c :: s =>
      if w <+: c :: s then
        decide (replaceFirst w r (front ++ w) = front ++ r) && inOrder w r (front ++ r) (w.length - 1) s
      else inOrder w r (front ++ [c]) 0 s

variable {w r s t front : List α} {p : Nat}

/-! ## The first occurrence -/

theorem findWord_eq_none_iff : findWord w s = none ↔ ¬ w <:+: s := by
  induction s with
  | nil =>
      rw [findWord, List.infix_nil]
      split <;> simp_all
  | cons c s ih =>
      rw [findWord, List.infix_cons_iff]
      split
      · rename_i hat
        simp [hat]
      · rename_i hno
        rw [Option.map_eq_none_iff, ih]
        simp [hno]

/-- **Where the first occurrence is.** -/
theorem findWord_spec (h : findWord w s = some p) : w <+: s.drop p ∧ ∀ q < p, ¬ w <+: s.drop q := by
  induction s generalizing p with
  | nil =>
      rw [findWord] at h
      split at h
      · rename_i hw
        obtain rfl := Option.some.inj h
        exact ⟨by simp [hw], by simp⟩
      · cases h
  | cons c s ih =>
      rw [findWord] at h
      split at h
      · rename_i hat
        obtain rfl := Option.some.inj h
        exact ⟨hat, by simp⟩
      · rename_i hno
        obtain ⟨p', hp', rfl⟩ := Option.map_eq_some_iff.mp h
        obtain ⟨hat, hbefore⟩ := ih hp'
        refine ⟨hat, fun q hq => ?_⟩
        cases q with
        | zero => exact hno
        | succ q => exact hbefore q (by omega)

theorem findWord_add_le (h : findWord w s = some p) : p + w.length ≤ s.length := by
  obtain ⟨hat, hbefore⟩ := findWord_spec h
  have hle := hat.length_le
  rw [List.length_drop] at hle
  by_cases hp : p ≤ s.length
  · omega
  · obtain rfl : w = [] := List.length_eq_zero_iff.mp (by omega)
    exact absurd List.nil_prefix (hbefore 0 (by omega))

/-- There is one position like this. -/
theorem findWord_eq_some (hat : w <+: s.drop p) (hbefore : ∀ q < p, ¬ w <+: s.drop q) : findWord w s = some p := by
  cases hfind : findWord w s with
  | none => exact absurd (hat.isInfix.trans (List.drop_suffix p s).isInfix) (findWord_eq_none_iff.mp hfind)
  | some q =>
      obtain ⟨hat', hbefore'⟩ := findWord_spec hfind
      rcases Nat.lt_trichotomy p q with hpq | rfl | hqp
      · exact absurd hat (hbefore' p hpq)
      · rfl
      · exact absurd hat' (hbefore q hqp)

omit [DecidableEq α] in
/-- What stands behind an occurrence does not matter. -/
theorem prefix_drop_append_iff {t : List α} (hle : p + w.length ≤ s.length) :
    w <+: (s ++ t).drop p ↔ w <+: s.drop p := by
  rw [List.drop_append_of_le_length (by omega)]
  refine ⟨fun h => List.prefix_of_prefix_length_le h (List.prefix_append _ t) ?_, fun h => h.trans
    (List.prefix_append _ t)⟩
  rw [List.length_drop]
  omega

theorem findWord_append (h : findWord w s = some p) (t : List α) : findWord w (s ++ t) = some p := by
  obtain ⟨hat, hbefore⟩ := findWord_spec h
  have hle := findWord_add_le h
  exact findWord_eq_some ((prefix_drop_append_iff hle).mpr hat) fun q hq hlong =>
    hbefore q hq ((prefix_drop_append_iff (by omega)).mp hlong)

theorem findWord_append_self_le (w front : List α) : ∃ p ≤ front.length, findWord w (front ++ w) = some p := by
  cases hfind : findWord w (front ++ w) with
  | none => exact absurd (List.infix_append' front w []) (by simpa using findWord_eq_none_iff.mp hfind)
  | some p =>
      refine ⟨p, ?_, rfl⟩
      by_contra hlt
      exact (findWord_spec hfind).2 front.length (by omega) (by simp)

/-- Where no occurrence begins in the first part, the search goes on in the second. -/
theorem findWord_skip (h : ∀ q < s.length, ¬ w <+: (s ++ t).drop q) :
    findWord w (s ++ t) = (findWord w t).map (s.length + ·) := by
  induction s with
  | nil => simp
  | cons c s ih =>
      have hhead : ¬ w <+: c :: (s ++ t) := h 0 (by simp)
      rw [List.cons_append, findWord, if_neg hhead, ih fun q hq => h (q + 1) (by simpa using hq), Option.map_map]
      refine congrArg (fun f => Option.map f (findWord w t)) (funext fun n => ?_)
      rw [Function.comp_apply, List.length_cons]
      omega

/-- **Searching behind a separator**, which a word can have only as its last letter. -/
theorem findWord_behind {c : α} (hfront : ¬ w <:+: front ++ [c]) (hlast : c ∉ w.dropLast) (s : List α) :
    findWord w (front ++ c :: s) = (findWord w s).map ((front ++ [c]).length + ·) := by
  rw [List.append_cons]
  apply findWord_skip
  intro q hq hat
  by_cases hle : q + w.length ≤ (front ++ [c]).length
  · exact hfront (((prefix_drop_append_iff hle).mp hat).isInfix.trans (List.drop_suffix q _).isInfix)
  · have hstart : (front ++ [c]).drop q <+: w := by
      refine List.prefix_of_prefix_length_le ?_ hat ?_
      · rw [List.drop_append_of_le_length (Nat.le_of_lt hq)]
        exact List.prefix_append _ _
      · rw [List.length_drop]
        omega
    obtain ⟨u, hu⟩ := hstart
    have hu' : u ≠ [] := by
      rintro rfl
      rw [List.append_nil] at hu
      rw [← hu, List.length_drop] at hle
      omega
    rw [← hu, List.dropLast_append_of_ne_nil hu'] at hlast
    rw [List.length_append, List.length_singleton] at hq
    rw [List.drop_append_of_le_length (by omega)] at hlast
    exact hlast (by simp)

/-- What stands behind the first occurrence stays. -/
theorem replaceFirst_append (h : findWord w s = some p) (r t : List α) :
    replaceFirst w r (s ++ t) = replaceFirst w r s ++ t := by
  have hle := findWord_add_le h
  rw [replaceFirst, findWord_append h, replaceFirst, h]
  dsimp only
  rw [List.take_append_of_le_length (by omega), List.drop_append_of_le_length hle, List.append_assoc,
    List.append_assoc, List.append_assoc]

/-! ## One pass -/

variable {c : α}

@[simp] theorem replaceOccurrences_nil (w r : List α) (skip : Nat) : replaceOccurrences w r skip [] = [] := by
  rw [replaceOccurrences]

theorem replaceOccurrences_skip (w r s : List α) (skip : Nat) (c : α) :
    replaceOccurrences w r (skip + 1) (c :: s) = replaceOccurrences w r skip s := by
  rw [replaceOccurrences]

theorem replaceOccurrences_occurrence (h : w <+: c :: s) (r : List α) :
    replaceOccurrences w r 0 (c :: s) = r ++ replaceOccurrences w r (w.length - 1) s := by
  rw [replaceOccurrences, if_pos h]

theorem replaceOccurrences_letter (h : ¬ w <+: c :: s) (r : List α) :
    replaceOccurrences w r 0 (c :: s) = c :: replaceOccurrences w r 0 s := by
  rw [replaceOccurrences, if_neg h]

theorem inOrder_nil (w r front : List α) (skip : Nat) : inOrder w r front skip [] = true ↔ ¬ w <:+: front := by
  rw [inOrder]
  simp

theorem inOrder_skip (w r front s : List α) (skip : Nat) (c : α) :
    inOrder w r front (skip + 1) (c :: s) = inOrder w r front skip s := by
  rw [inOrder]

theorem inOrder_occurrence (h : w <+: c :: s) (r front : List α) :
    inOrder w r front 0 (c :: s) = true ↔
      replaceFirst w r (front ++ w) = front ++ r ∧ inOrder w r (front ++ r) (w.length - 1) s = true := by
  rw [inOrder, if_pos h]
  simp

theorem inOrder_letter (h : ¬ w <+: c :: s) (r front : List α) :
    inOrder w r front 0 (c :: s) = inOrder w r (front ++ [c]) 0 s := by
  rw [inOrder, if_neg h]

omit [DecidableEq α] in
/-- What stands behind an occurrence. -/
theorem cons_eq_append_drop (hw : w ≠ []) (h : w <+: c :: s) : c :: s = w ++ s.drop (w.length - 1) := by
  obtain ⟨d, w, rfl⟩ := List.exists_cons_of_ne_nil hw
  obtain ⟨t, ht⟩ := h
  have hs : w ++ t = s := (List.cons.inj ht).2
  rw [List.length_cons, Nat.add_sub_cancel, ← ht, ← hs, List.drop_left]

theorem length_replaceFirst (h : findWord w s = some p) (r : List α) :
    (replaceFirst w r s).length + w.length = s.length + r.length := by
  have hle := findWord_add_le h
  rw [replaceFirst, h]
  simp only [List.length_append, List.length_take, List.length_drop]
  omega

/-! ## Overlaps -/

/-- **Where the first occurrence is, up to the end of an occurrence**: it overlaps with this one (and is the same
    if `q` is empty), or it lies before it. -/
theorem replaceFirst_cases (w r front : List α) :
    (∃ u q y z, y ≠ [] ∧ front = u ++ q ∧ w = q ++ y ∧ w = y ++ z ∧
        replaceFirst w r (front ++ w) = u ++ (r ++ z)) ∨
      ∃ front', front'.length + w.length = front.length + r.length ∧
        replaceFirst w r (front ++ w) = front' ++ w := by
  obtain ⟨p, hp, hfind⟩ := findWord_append_self_le w front
  by_cases hin : p + w.length ≤ front.length
  · obtain ⟨hat, hbefore⟩ := findWord_spec hfind
    have hfront : findWord w front = some p :=
      findWord_eq_some ((prefix_drop_append_iff hin).mp hat) fun q hq hshort =>
        hbefore q hq ((prefix_drop_append_iff (by omega)).mpr hshort)
    exact Or.inr ⟨replaceFirst w r front, length_replaceFirst hfront r, replaceFirst_append hfront r w⟩
  · have hat := (findWord_spec hfind).1
    rw [List.drop_append_of_le_length hp] at hat
    obtain ⟨z, hz⟩ := hat
    have hq : front.drop p <+: w := by
      refine List.prefix_of_prefix_length_le (List.prefix_append _ w) (hz ▸ List.prefix_append w z) ?_
      rw [List.length_drop]
      omega
    obtain ⟨y, hy⟩ := hq
    have hyz : w = y ++ z := by
      have hboth : front.drop p ++ (y ++ z) = front.drop p ++ w := by
        rw [← List.append_assoc, hy, hz]
      exact (List.append_cancel_left hboth).symm
    have hafter : replaceFirst w r (front ++ w) = front.take p ++ (r ++ z) := by
      rw [replaceFirst, hfind]
      dsimp only
      rw [List.take_append_of_le_length hp, ← List.drop_drop, List.drop_append_of_le_length hp, ← hz,
        List.drop_left, List.append_assoc]
    refine Or.inl ⟨front.take p, front.drop p, y, z, ?_, (List.take_append_drop p front).symm, hy.symm, hyz,
      hafter⟩
    rintro rfl
    have hlen := congrArg List.length hy
    rw [List.append_nil, List.length_drop] at hlen
    omega

/-! ## Lower texts -/

variable {lt : α → α → Prop} {i j : Nat} {u x y : List α} {a b : α}

/-- `t` is `s` up to the position `i`, where it has a lower letter. -/
structure LoweredAt (lt : α → α → Prop) (i : Nat) (s t : List α) : Prop where
  before : ∀ j < i, t[j]? = s[j]?
  lower : ∃ a b, lt b a ∧ s[i]? = some a ∧ t[i]? = some b

/-- `t` is `s`, or lower. -/
def AtMost (lt : α → α → Prop) (s t : List α) : Prop := t = s ∨ ∃ i, LoweredAt lt i s t

/-- All the ways in which `w` overlaps with itself go downwards: for the first of two overlapping occurrences
    replaced, the text is lower than for the second one, or the same. -/
def OverlapsDown (lt : α → α → Prop) (w r : List α) : Prop :=
  ∀ q y z, y ≠ [] → w = q ++ y → w = y ++ z → AtMost lt (q ++ r) (r ++ z)

section Order

omit [DecidableEq α]

theorem loweredAt_append (h : lt b a) (u x y : List α) : LoweredAt lt u.length (u ++ a :: x) (u ++ b :: y) := by
  refine ⟨fun j hj => ?_, a, b, h, by simp, by simp⟩
  rw [List.getElem?_append_left hj, List.getElem?_append_left hj]

theorem LoweredAt.append_left (h : LoweredAt lt i s t) (u : List α) :
    LoweredAt lt (u.length + i) (u ++ s) (u ++ t) := by
  obtain ⟨hbefore, a, b, hlt, hs, ht⟩ := h
  refine ⟨fun j hj => ?_, a, b, hlt, ?_, ?_⟩
  · by_cases hju : j < u.length
    · rw [List.getElem?_append_left hju, List.getElem?_append_left hju]
    · rw [List.getElem?_append_right (by omega), List.getElem?_append_right (by omega)]
      exact hbefore _ (by omega)
  · rw [List.getElem?_append_right (by omega), Nat.add_sub_cancel_left, hs]
  · rw [List.getElem?_append_right (by omega), Nat.add_sub_cancel_left, ht]

theorem LoweredAt.append_right (h : LoweredAt lt i s t) (u : List α) : LoweredAt lt i (s ++ u) (t ++ u) := by
  obtain ⟨hbefore, a, b, hlt, hs, ht⟩ := h
  have hsl := (List.getElem?_eq_some_iff.mp hs).1
  have htl := (List.getElem?_eq_some_iff.mp ht).1
  refine ⟨fun j hj => ?_, a, b, hlt, ?_, ?_⟩
  · rw [List.getElem?_append_left (by omega), List.getElem?_append_left (by omega), hbefore j hj]
  · rw [List.getElem?_append_left hsl, hs]
  · rw [List.getElem?_append_left htl, ht]

variable (htrans : ∀ a b c, lt a b → lt b c → lt a c)

include htrans in
/-- **What has been lowered stays lowered**: lowering again, anywhere, leaves a text that is lowered at the same
    position or at an earlier one. -/
theorem LoweredAt.trans (hst : LoweredAt lt i s t) (htu : LoweredAt lt j t u) :
    ∃ k ≤ i, LoweredAt lt k s u := by
  obtain ⟨hbefore, a, b, hlt, hs, ht⟩ := hst
  obtain ⟨hbefore', b', c, hlt', ht', hu⟩ := htu
  rcases Nat.lt_trichotomy i j with hij | rfl | hji
  · refine ⟨i, Nat.le_refl i, fun k hk => ?_, a, b, hlt, hs, ?_⟩
    · rw [hbefore' k (by omega), hbefore k hk]
    · rw [hbefore' i hij, ht]
  · obtain rfl : b = b' := Option.some.inj (ht.symm.trans ht')
    exact ⟨i, Nat.le_refl i, fun k hk => by rw [hbefore' k hk, hbefore k hk], a, c, htrans _ _ _ hlt' hlt, hs, hu⟩
  · refine ⟨j, by omega, fun k hk => ?_, b', c, hlt', ?_, hu⟩
    · rw [hbefore' k hk, hbefore k (by omega)]
    · rw [← hbefore j hji, ht']

include htrans in
theorem AtMost.trans (hst : AtMost lt s t) (htu : AtMost lt t u) : AtMost lt s u := by
  rcases hst with rfl | ⟨i, hst⟩
  · exact htu
  · rcases htu with rfl | ⟨j, htu⟩
    · exact Or.inr ⟨i, hst⟩
    · obtain ⟨k, -, hk⟩ := hst.trans htrans htu
      exact Or.inr ⟨k, hk⟩

include htrans in
theorem AtMost.antisymm (hirrefl : ∀ a, ¬ lt a a) (hst : AtMost lt s t) (hts : AtMost lt t s) : t = s := by
  rcases hst with rfl | ⟨i, hst⟩
  · rfl
  · rcases hts with rfl | ⟨j, hts⟩
    · rfl
    · obtain ⟨k, -, hk⟩ := hst.trans htrans hts
      obtain ⟨a, b, hlt, ha, hb⟩ := hk.lower
      obtain rfl := Option.some.inj (ha.symm.trans hb)
      exact absurd hlt (hirrefl a)

theorem AtMost.append_left (h : AtMost lt s t) (u : List α) : AtMost lt (u ++ s) (u ++ t) := by
  rcases h with rfl | ⟨i, h⟩
  · exact Or.inl rfl
  · exact Or.inr ⟨_, h.append_left u⟩

theorem AtMost.append_right (h : AtMost lt s t) (u : List α) : AtMost lt (s ++ u) (t ++ u) := by
  rcases h with rfl | ⟨i, h⟩
  · exact Or.inl rfl
  · exact Or.inr ⟨_, h.append_right u⟩

/-- Two words of which neither begins with the other differ in a first letter. -/
theorem exists_first_difference (hw : ¬ w <+: r) (hr : ¬ r <+: w) :
    ∃ u a b x y, a ≠ b ∧ w = u ++ a :: x ∧ r = u ++ b :: y := by
  induction w generalizing r with
  | nil => exact absurd List.nil_prefix hw
  | cons c w ih =>
      cases r with
      | nil => exact absurd List.nil_prefix hr
      | cons d r =>
          by_cases hcd : c = d
          · subst hcd
            obtain ⟨u, a, b, x, y, hab, rfl, rfl⟩ := ih
              (fun h => hw ((List.prefix_cons_inj c).mpr h)) (fun h => hr ((List.prefix_cons_inj c).mpr h))
            exact ⟨c :: u, a, b, x, y, hab, rfl, rfl⟩
          · exact ⟨[], c, d, w, r, hcd, rfl, rfl⟩

end Order

/-- Replacing the first occurrence by a word that is lower in its first difference lowers a text. -/
theorem loweredAt_replaceFirst (hlt : lt b a) (h : findWord (u ++ a :: x) s = some p) (y : List α) :
    LoweredAt lt (p + u.length) s (replaceFirst (u ++ a :: x) (u ++ b :: y) s) := by
  have hle := findWord_add_le h
  have hlen : (s.take p ++ u).length = p + u.length := by
    rw [List.length_append, List.length_take, Nat.min_eq_left (by omega)]
  have hsplit : s = s.take p ++ u ++ a :: (x ++ s.drop (p + (u ++ a :: x).length)) := by
    obtain ⟨t, ht⟩ := (findWord_spec h).1
    have hdrop : s.drop (p + (u ++ a :: x).length) = t := by
      rw [← List.drop_drop, ← ht, List.drop_left]
    rw [hdrop, List.append_assoc, ← List.cons_append, ← List.append_assoc u, ht, List.take_append_drop]
  have hafter : replaceFirst (u ++ a :: x) (u ++ b :: y) s =
      s.take p ++ u ++ b :: (y ++ s.drop (p + (u ++ a :: x).length)) := by
    rw [replaceFirst, h]
    simp
  have hlowered := loweredAt_append hlt (s.take p ++ u) (x ++ s.drop (p + (u ++ a :: x).length))
    (y ++ s.drop (p + (u ++ a :: x).length))
  rwa [← hsplit, ← hafter, hlen] at hlowered

end Lib
