import Hiaux.Strings.Correctness.Tokens
import Hiaux.Strings.Names

/-!
# `Strings.Correctness.DomainNames` — the labels of a domain name, turned round

`invertDomain` goes through the labels from the last to the first and puts a dot behind each but the one with
index 0. If that one is empty, because the name begins with a dot, the last label written has a dot behind it
that belongs there no more (`invertDomain_eq`). Turned round again, the name has only the dots it should have.
-/

namespace Hiaux
namespace Strings

open Lib

variable {d r : Bytes} {labels tokens : List Bytes}

/-- The non-empty labels of a domain name. -/
def labelsOf (d : Bytes) : List Bytes := Lib.tokens (· == 46) d

/-- A label: not empty, and without dots. -/
def IsLabel (l : Bytes) : Prop := l ≠ [] ∧ 46 ∉ l

/-- The labels, joined by single dots, with none before them or behind them. -/
structure JoinsLabels (labels : List Bytes) (r : Bytes) : Prop where
  joined : r = [46].intercalate labels
  no_leading : r.head? ≠ some 46
  no_trailing : r.getLast? ≠ some 46
  no_doubled : ¬ [46, 46] <:+: r

/-! ## Labels -/

theorem isLabel_iff {l : Bytes} : IsLabel l ↔ l ≠ [] ∧ ∀ c ∈ l, (c == 46) = false := by
  apply and_congr_right
  intro _
  constructor
  · intro h c hc
    exact beq_eq_false_iff_ne.mpr fun he => h (he ▸ hc)
  · intro h hmem
    exact absurd (h 46 hmem) (by simp)

theorem isLabel_of_mem {l : Bytes} (h : l ∈ labelsOf d) : IsLabel l := isLabel_iff.mpr (mem_tokens h)

theorem labelsOf_intercalate (h : ∀ l ∈ labels, IsLabel l) : labelsOf ([46].intercalate labels) = labels :=
  tokens_intercalate rfl fun l hl => isLabel_iff.mp (h l hl)

/-- The tokens of `split` that are not empty. -/
theorem filter_split (d : Bytes) : (split d 46).filter (· ≠ []) = labelsOf d := filter_getlines 46 [] d

theorem head?_ne_of_isLabel {l : Bytes} (h : IsLabel l) (s : Bytes) : (l ++ s).head? ≠ some 46 := by
  obtain ⟨hne, h46⟩ := h
  obtain ⟨c, l, rfl⟩ := List.exists_cons_of_ne_nil hne
  intro hc
  exact h46 (Option.some.inj hc ▸ List.mem_cons_self)

theorem getLast?_ne_of_isLabel {l : Bytes} (h : IsLabel l) (s : Bytes) : (s ++ l).getLast? ≠ some 46 := by
  obtain ⟨hne, h46⟩ := h
  rw [List.getLast?_append_of_ne_nil _ hne]
  exact fun hc => h46 (List.mem_of_getLast? hc)

/-- Joined labels begin with the first one. -/
theorem head?_intercalate (h : ∀ l ∈ labels, IsLabel l) : ([46].intercalate labels).head? ≠ some 46 := by
  cases labels with
  | nil => exact fun hc => absurd hc (by simp)
  | cons l ls =>
      obtain ⟨hl, -⟩ := List.forall_mem_cons.mp h
      by_cases hls : ls = []
      · rw [hls, List.intercalate_singleton, ← List.append_nil l]
        exact head?_ne_of_isLabel hl []
      · rw [List.intercalate_cons_of_ne_nil hls, List.append_assoc]
        exact head?_ne_of_isLabel hl _

theorem getLast?_intercalate (h : ∀ l ∈ labels, IsLabel l) : ([46].intercalate labels).getLast? ≠ some 46 := by
  rcases List.eq_nil_or_concat' labels with rfl | ⟨ls, l, rfl⟩
  · exact fun hc => absurd hc (by simp)
  · rw [intercalate_concat]
    exact getLast?_ne_of_isLabel (h l (by simp)) _

/-- Two dots stand next to each other in a label, or where two labels meet. -/
theorem no_doubled_intercalate (h : ∀ l ∈ labels, IsLabel l) : ¬ [46, 46] <:+: [46].intercalate labels := by
  induction labels with
  | nil => exact fun hin => absurd (List.eq_nil_of_infix_nil hin) (by simp)
  | cons l ls ih =>
      obtain ⟨hl, hls⟩ := List.forall_mem_cons.mp h
      by_cases hnil : ls = []
      · rw [hnil, List.intercalate_singleton]
        exact fun hin => hl.2 (hin.subset (by simp))
      · rw [List.intercalate_cons_of_ne_nil hnil, List.append_assoc]
        rintro ⟨p, q, hpq⟩
        rw [List.append_assoc] at hpq
        rcases List.append_eq_append_iff.mp hpq with ⟨p', hp, hrest⟩ | ⟨l', hl', hrest⟩
        · -- the dots begin in the label
          cases p' with
          | nil =>
              have hhead := congrArg List.head? (List.cons.inj hrest).2
              exact head?_intercalate hls hhead.symm
          | cons c p' =>
              have hc : c = 46 := (List.cons.inj hrest).1.symm
              exact hl.2 (by rw [hp, hc]; simp)
        · cases l' with
          | nil =>
              have hhead := congrArg List.head? (List.cons.inj hrest).2
              exact head?_intercalate hls hhead
          | cons c l' =>
              have htail := (List.cons.inj hrest).2
              exact ih hls ⟨l', q, by rw [List.append_assoc]; exact htail.symm⟩

theorem joinsLabels_intercalate (h : ∀ l ∈ labels, IsLabel l) : JoinsLabels labels ([46].intercalate labels) :=
  ⟨rfl, head?_intercalate h, getLast?_intercalate h, no_doubled_intercalate h⟩

/-! ## Turning round -/

/-- **The loop of `invertDomain`**: every label but the one with index 0 has a dot behind it. -/
theorem invertFrom_succ (t : Bytes) {i : Nat} (hi : i ≤ tokens.length) (ret : Bytes) :
    invertFrom (t :: tokens) (i + 1) ret =
      ret ++ ((tokens.take i).reverse.filter (· ≠ [])).flatMap (· ++ [46]) ++ t := by
  induction i generalizing ret with
  | zero =>
      rw [invertFrom, invertFrom]
      by_cases ht : t = [] <;> simp [ht]
  | succ i ih =>
      have hlt : i < tokens.length := hi
      have htoken : (t :: tokens).getD (i + 1) [] = tokens[i] := by simp [hlt]
      rw [invertFrom, htoken, ih (Nat.le_of_lt hlt), List.take_succ_eq_append_getElem hlt, List.reverse_append]
      by_cases hne : tokens[i] = [] <;> simp [hne]

/-- The first token of `split` is empty if the delimiter stands first. -/
theorem exists_getlines_cons (delim : UInt8) (item : Bytes) (c : UInt8) (s : Bytes) :
    ∃ t ts, getlines delim item (c :: s) = t :: ts ∧ (t = [] ↔ item = [] ∧ c = delim) := by
  induction s generalizing item c with
  | nil =>
      by_cases hc : c = delim
      · exact ⟨item, [], by rw [getlines, if_pos hc]; rfl, by simp [hc]⟩
      · exact ⟨item ++ [c], [], by rw [getlines, if_neg hc, getlines, if_neg (by simp)], by simp [hc]⟩
  | cons d s ih =>
      by_cases hc : c = delim
      · exact ⟨item, getlines delim [] (d :: s), by rw [getlines, if_pos hc], by simp [hc]⟩
      · obtain ⟨t, ts, hlines, hnil⟩ := ih (item ++ [c]) d
        refine ⟨t, ts, by rw [getlines, if_neg hc, hlines], ?_⟩
        rw [hnil]
        simp [hc]

/-- **What `invertDomain` writes**: the labels turned round, and a dot behind the last one if the name begins
    with a dot. -/
theorem invertDomain_eq (d : Bytes) :
    invertDomain d =
      if d.head? = some 46 then (labelsOf d).reverse.flatMap (· ++ [46])
      else [46].intercalate (labelsOf d).reverse := by
  cases d with
  | nil => rfl
  | cons c d =>
      obtain ⟨t, ts, hsplit, hnil⟩ := exists_getlines_cons 46 [] c d
      have hlabels : labelsOf (c :: d) = (t :: ts).filter (· ≠ []) := by
        rw [← filter_split, split, hsplit]
      have hwritten : invertDomain (c :: d) = (ts.filter (· ≠ [])).reverse.flatMap (· ++ [46]) ++ t := by
        unfold invertDomain split
        dsimp only
        rw [hsplit, List.length_cons, invertFrom_succ t (Nat.le_refl _), List.take_length, List.filter_reverse]
        rfl
      rw [hwritten, hlabels, List.head?_cons]
      by_cases hc : c = 46
      · obtain rfl := hnil.mpr ⟨rfl, hc⟩
        rw [if_pos (congrArg some hc)]
        simp
      · have ht : t ≠ [] := fun ht => hc (hnil.mp ht).2
        rw [if_neg (fun he => hc (Option.some.inj he)), List.filter_cons_of_pos (by simpa using ht),
          List.reverse_cons, intercalate_concat]

theorem isLabel_of_mem_reverse {l : Bytes} (h : l ∈ (labelsOf d).reverse) : IsLabel l :=
  isLabel_of_mem (List.mem_reverse.mp h)

/-- **When the labels are joined by single dots**: if the name does not begin with a dot, or has only dots. -/
theorem joinsLabels_invertDomain_iff (d : Bytes) :
    JoinsLabels (labelsOf d).reverse (invertDomain d) ↔ (d.head? = some 46 → ∀ c ∈ d, c = 46) := by
  have hjoins := joinsLabels_intercalate (fun l => isLabel_of_mem_reverse (d := d) (l := l))
  have hdots : labelsOf d = [] ↔ ∀ c ∈ d, c = 46 := by
    rw [labelsOf, tokens_eq_nil_iff]
    simp
  rw [invertDomain_eq, ← hdots]
  by_cases hhead : d.head? = some 46
  · rw [if_pos hhead, forall_prop_of_true hhead]
    constructor
    · intro h
      rcases List.eq_nil_or_concat' (labelsOf d).reverse with hnil | ⟨ls, l, hconcat⟩
      · exact List.reverse_eq_nil_iff.mp hnil
      · exact absurd (by rw [hconcat]; simp) h.no_trailing
    · intro h
      rw [h] at hjoins ⊢
      exact hjoins
  · rw [if_neg hhead]
    exact iff_of_true hjoins fun h => absurd h hhead

/-- Turned round, a name has the same labels, and does not begin with a dot. -/
theorem labelsOf_invertDomain (d : Bytes) :
    labelsOf (invertDomain d) = (labelsOf d).reverse ∧ (invertDomain d).head? ≠ some 46 := by
  have hlabel : ∀ l ∈ (labelsOf d).reverse, IsLabel l := fun _ => isLabel_of_mem_reverse
  have htokens : ∀ l ∈ (labelsOf d).reverse, l ≠ [] ∧ ∀ c ∈ l, (c == 46) = false :=
    fun l hl => isLabel_iff.mp (hlabel l hl)
  rw [invertDomain_eq]
  split
  · constructor
    · have happ := tokens_flatMap_append (c := 46) (by rfl) htokens []
      rwa [List.append_nil, tokens_nil, List.append_nil] at happ
    · cases hls : (labelsOf d).reverse with
      | nil => exact fun hc => absurd hc (by simp)
      | cons l ls =>
          rw [hls] at hlabel
          rw [List.flatMap_cons, List.append_assoc]
          exact head?_ne_of_isLabel (hlabel l List.mem_cons_self) _
  · exact ⟨labelsOf_intercalate hlabel, head?_intercalate hlabel⟩

theorem invertDomain_invertDomain (d : Bytes) : invertDomain (invertDomain d) = [46].intercalate (labelsOf d) := by
  obtain ⟨hlabels, hhead⟩ := labelsOf_invertDomain d
  rw [invertDomain_eq, if_neg hhead, hlabels, List.reverse_reverse]

/-- **`invertDomain` turns the labels round** exactly if the name does not begin with a dot, or has only dots.
    Doing it twice always gives the name without its empty labels. -/
theorem invertDomain_iff (d : Bytes) :
    (JoinsLabels (labelsOf d).reverse (invertDomain d) ↔ (d.head? = some 46 → ∀ c ∈ d, c = 46)) ∧
      invertDomain (invertDomain d) = [46].intercalate (labelsOf d) ∧
      ∀ labels, (∀ l ∈ labels, IsLabel l) →
        invertDomain (invertDomain ([46].intercalate labels)) = [46].intercalate labels := by
  refine ⟨joinsLabels_invertDomain_iff d, invertDomain_invertDomain d, fun labels h => ?_⟩
  rw [invertDomain_invertDomain, labelsOf_intercalate h]

/-- `www.example.com`. -/
theorem invertDomain_iff_example :
    invertDomain (invertDomain ([46].intercalate [ascii "www", ascii "example", ascii "com"])) =
      [46].intercalate [ascii "www", ascii "example", ascii "com"] :=
  (invertDomain_iff []).2.2 [ascii "www", ascii "example", ascii "com"] (by
    intro l hl
    simp only [List.mem_cons, List.not_mem_nil, or_false] at hl
    rcases hl with rfl | rfl | rfl <;> exact ⟨by decide +kernel, by decide +kernel⟩)

/-- **A leading dot**: `.a.b` is turned into `b.a.`. -/
theorem invertDomain_leading_dot :
    invertDomain (ascii ".a.b") = ascii "b.a." ∧
      ¬ JoinsLabels (labelsOf (ascii ".a.b")).reverse (invertDomain (ascii ".a.b")) := by
  refine ⟨by decide +kernel, fun h => h.no_trailing ?_⟩
  decide +kernel

end Strings
end Hiaux
