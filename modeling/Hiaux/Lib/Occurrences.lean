import Hiaux.Lib.Suffix
import Mathlib.Algebra.BigOperators.Group.List.Basic
import Mathlib.Algebra.Module.Basic
import Mathlib.Data.List.Count
import Mathlib.Data.List.Range

/-!
# `Lib.Occurrences` — all occurrences of many words in a text

`occurrences` lists them word by word; `endings` lists them in the order a scan from left to right finds
them, as the words that are suffixes of what has been read. The two are the same up to order
(`endings_perm`), and the second comes with the order of the ends (`endings_pairwise`).
-/

namespace Lib

variable {α : Type} [DecidableEq α]

/-- The positions at which `w` occurs in `text`. -/
def positions (text w : List α) : List Nat := (List.range text.length).filter (fun p => w <+: text.drop p)

/-- For each member of a list of words, in turn, its occurrences: the word and the position. -/
def occurrences (ws : List (List α)) (text : List α) : List (List α × Nat) :=
  ws.flatMap (fun w => (positions text w).map (fun p => (w, p)))

/-- The words that end after `i` letters, with the position at which they start. -/
def endingsAt (ws : List (List α)) (text : List α) (i : Nat) : List (List α × Nat) :=
  (suffixMatches ws (text.take i)).map (fun w => (w, i - w.length))

/-- The words found by a scan, letter by letter. -/
def endings (ws : List (List α)) (text : List α) : List (List α × Nat) :=
  (List.range text.length).flatMap (fun i => endingsAt ws text (i + 1))

/-! ## The order of the scan -/

theorem mem_endingsAt {ws : List (List α)} {text : List α} {i : Nat} {e : List α × Nat}
    (he : e ∈ endingsAt ws text i) : e.1.length + e.2 = i ∨ i > text.length := by
  obtain ⟨w, hw, rfl⟩ := List.mem_map.mp he
  have hle := (suffix_of_mem_suffixMatches hw).1.length_le
  rw [List.length_take] at hle
  dsimp only
  omega

/-- **Found in order**: by end, and at the same end longer words first. -/
theorem endings_pairwise (ws : List (List α)) (text : List α) :
    (endings ws text).Pairwise (fun a b => a.1.length + a.2 ≤ b.1.length + b.2 ∧
      (a.1.length + a.2 = b.1.length + b.2 → b.1.length ≤ a.1.length)) := by
  unfold endings
  rw [List.pairwise_flatMap]
  refine ⟨?_, ?_⟩
  · intro i hi
    have hlt := List.mem_range.mp hi
    unfold endingsAt
    rw [List.pairwise_map]
    refine (suffixMatches_pairwise ws (text.take (i + 1))).imp_of_mem ?_
    intro v w hv hw hle
    have hv' := (suffix_of_mem_suffixMatches hv).1.length_le
    have hw' := (suffix_of_mem_suffixMatches hw).1.length_le
    rw [List.length_take] at hv' hw'
    dsimp only
    omega
  · refine List.pairwise_lt_range.imp_of_mem ?_
    intro i j hi hj hij a ha b hb
    have hin := List.mem_range.mp hi
    have hjn := List.mem_range.mp hj
    rcases mem_endingsAt ha with hai | hai <;> rcases mem_endingsAt hb with hbj | hbj <;> omega

/-! ## Nothing missed, nothing found twice -/

theorem count_map_pair (l : List (List α)) (g : List α → Nat) (w : List α) (p : Nat) :
    (l.map (fun v => (v, g v))).count (w, p) = if g w = p then l.count w else 0 := by
  induction l with
  | nil => simp
  | cons v l ih =>
      rw [List.map_cons, List.count_cons, List.count_cons, ih]
      by_cases hv : v = w
      · subst hv
        by_cases hg : g v = p <;> simp [hg]
      · simp [hv]

omit [DecidableEq α] in
/-- A word that ends after `k + 1` letters starts where the text goes on with it. -/
theorem suffix_take_iff {text w : List α} {k p : Nat} (hk : k < text.length) (hw : w ≠ []) :
    (k + 1 - w.length = p ∧ w <:+ text.take (k + 1)) ↔ (k + 1 = p + w.length ∧ w <+: text.drop p) := by
  have hpos := List.length_pos_of_ne_nil hw
  constructor
  · rintro ⟨hp, hs⟩
    have hle := hs.length_le
    rw [List.length_take] at hle
    have hkp : k + 1 = p + w.length := by omega
    refine ⟨hkp, ?_⟩
    obtain ⟨u, hu⟩ := hs
    -- the letters before the word are the first `p`
    have hul : u.length = p := by
      have hlen := congrArg List.length hu
      rw [List.length_append, List.length_take] at hlen
      omega
    have htext : text = u ++ (w ++ text.drop (k + 1)) := by
      rw [← List.append_assoc, hu, List.take_append_drop]
    refine ⟨text.drop (k + 1), ?_⟩
    conv_rhs => rw [htext]
    rw [← hul, List.drop_left]
  · rintro ⟨hkp, v, hv⟩
    refine ⟨by omega, text.take p, ?_⟩
    have htext : text.take p ++ (w ++ v) = text := by rw [hv, List.take_append_drop]
    have hl : (text.take p ++ w).length = k + 1 := by
      rw [List.length_append, List.length_take]
      omega
    rw [← List.append_assoc] at htext
    conv_rhs => rw [← htext]
    rw [← hl, List.take_left]

theorem count_occurrences (ws : List (List α)) (text w : List α) (p : Nat) :
    (occurrences ws text).count (w, p) = ws.count w * (positions text w).count p := by
  unfold occurrences
  rw [List.count_flatMap, List.sum_map_eq_nsmul_single w]
  · rw [smul_eq_mul]
    congr 1
    · congr 1
      exact lawful_beq_subsingleton _ _
    exact List.count_map_of_injective (positions text w) (fun p => (w, p))
      (fun a b h => (Prod.mk.inj h).2) p
  · intro v hv _
    rw [Function.comp, List.count_eq_zero]
    intro hmem
    obtain ⟨q, _, he⟩ := List.mem_map.mp hmem
    exact hv (Prod.mk.inj he).1

theorem count_positions {text w : List α} (hw : w ≠ []) (p : Nat) :
    (positions text w).count p = if w <+: text.drop p then 1 else 0 := by
  have hnd : (positions text w).Nodup := List.nodup_range.filter _
  have hpos := List.length_pos_of_ne_nil hw
  by_cases hp : w <+: text.drop p
  · have hle := hp.length_le
    rw [List.length_drop] at hle
    have hmem : p ∈ positions text w :=
      List.mem_filter.mpr ⟨List.mem_range.mpr (by omega), decide_eq_true hp⟩
    rw [if_pos hp, hnd.count, if_pos hmem]
  · rw [if_neg hp, List.count_eq_zero]
    intro hmem
    exact hp (of_decide_eq_true (List.mem_filter.mp hmem).2)

theorem count_endings {ws : List (List α)} {text w : List α} (hw : w ≠ []) (p : Nat) :
    (endings ws text).count (w, p) = if w <+: text.drop p then ws.count w else 0 := by
  have hpos := List.length_pos_of_ne_nil hw
  have hat : ∀ k, k < text.length → (endingsAt ws text (k + 1)).count (w, p) =
      if k + 1 = p + w.length ∧ w <+: text.drop p then ws.count w else 0 := by
    intro k hk
    unfold endingsAt
    rw [count_map_pair, count_suffixMatches _ _ hw, ← ite_and]
    simp only [suffix_take_iff hk hw]
  unfold endings
  rw [List.count_flatMap, List.sum_map_eq_nsmul_single (p + w.length - 1)]
  · by_cases hp : w <+: text.drop p
    · have hle := hp.length_le
      rw [List.length_drop] at hle
      have hk : p + w.length - 1 < text.length := by omega
      rw [List.nodup_range.count, if_pos (List.mem_range.mpr hk), one_nsmul, Function.comp,
        hat _ hk, if_pos ⟨by omega, hp⟩, if_pos hp]
    · rw [if_neg hp]
      by_cases hk : p + w.length - 1 < text.length
      · rw [Function.comp, hat _ hk, if_neg (fun h => hp h.2), smul_zero]
      · rw [List.count_eq_zero.mpr (fun h => hk (List.mem_range.mp h)), zero_nsmul]
  · intro k hk hmem
    rw [Function.comp, hat k (List.mem_range.mp hmem), if_neg]
    omega

/-- **The scan finds exactly the occurrences.** -/
theorem endings_perm {ws : List (List α)} (hws : ∀ w ∈ ws, w ≠ []) (text : List α) :
    (endings ws text).Perm (occurrences ws text) := by
  rw [List.perm_iff_count]
  rintro ⟨w, p⟩
  rw [count_occurrences]
  by_cases hw : w = []
  · subst hw
    rw [List.count_eq_zero.mpr (fun h => hws [] h rfl), Nat.zero_mul, List.count_eq_zero]
    intro hmem
    obtain ⟨i, _, hi⟩ := List.mem_flatMap.mp hmem
    obtain ⟨v, hv, he⟩ := List.mem_map.mp hi
    exact (suffix_of_mem_suffixMatches hv).2 (Prod.mk.inj he).1
  · rw [count_endings hw, count_positions hw]
    split <;> simp

end Lib
