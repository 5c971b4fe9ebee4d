import Mathlib.Data.List.Basic
import Mathlib.Data.Nat.Basic

/-!
# `Lib.Blocks` — folding a function over the blocks of a stream

`absorb n f s data` folds `f` over the whole blocks of `n` elements in `data`, and `leftover n data` is what stands
behind the last one. A stream that arrives in pieces is folded piece by piece: the state and the leftover so far are
all that has to be kept (`absorb_append`, `leftover_append`).
-/

namespace Lib

variable {α σ : Type} {n : Nat} {f : σ → List α → σ}

/-- The state after the whole blocks of `data`. -/
def absorb (n : Nat) (f : σ → List α → σ) (s : σ) (data : List α) : σ :=
  if 0 < n ∧ n ≤ data.length then absorb n f (f s (data.take n)) (data.drop n) else s
termination_by data.length
decreasing_by
  rw [List.length_drop]
  omega

/-- What stands behind the last whole block. -/
def leftover (n : Nat) (data : List α) : List α := data.drop (data.length / n * n)

theorem absorb_of_lt (s : σ) {data : List α} (h : data.length < n) : absorb n f s data = s := by
  rw [absorb, if_neg (by omega)]

theorem absorb_block (hn : 0 < n) (s : σ) {block : List α} (hblock : block.length = n) (data : List α) :
    absorb n f s (block ++ data) = absorb n f (f s block) data := by
  have hlength : n ≤ (block ++ data).length := by
    rw [List.length_append]
    omega
  rw [absorb, if_pos ⟨hn, hlength⟩, List.take_left' hblock, List.drop_left' hblock]

theorem length_leftover (data : List α) : (leftover n data).length = data.length % n := by
  have hdiv := Nat.div_add_mod' data.length n
  rw [leftover, List.length_drop]
  omega

theorem leftover_of_lt {data : List α} (h : data.length < n) : leftover n data = data := by
  rw [leftover, Nat.div_eq_of_lt h, Nat.zero_mul]
  rfl

theorem leftover_of_dvd {data : List α} (h : n ∣ data.length) : leftover n data = [] := by
  rw [leftover, Nat.div_mul_cancel h, List.drop_length]

/-- Whole blocks in front do not change the leftover. -/
theorem leftover_append_left (hn : 0 < n) {x : List α} (hx : n ∣ x.length) (y : List α) :
    leftover n (x ++ y) = leftover n y := by
  obtain ⟨k, hk⟩ := hx
  have hdiv : (x ++ y).length / n * n = x.length + y.length / n * n := by
    rw [List.length_append, hk, Nat.add_comm, Nat.add_mul_div_left _ _ hn, Nat.add_mul, Nat.mul_comm k n,
      Nat.add_comm]
  rw [leftover, leftover, hdiv, List.drop_append]
  have hzero : x.length + y.length / n * n - x.length = y.length / n * n := Nat.add_sub_cancel_left _ _
  rw [hzero, List.drop_eq_nil_of_le (Nat.le_add_right _ _), List.nil_append]

/-- Whole blocks in front are folded first. -/
theorem absorb_append_left (hn : 0 < n) (s : σ) {x : List α} (hx : n ∣ x.length) (y : List α) :
    absorb n f s (x ++ y) = absorb n f (absorb n f s x) y := by
  obtain ⟨k, hk⟩ := hx
  induction k generalizing s x with
  | zero =>
      obtain rfl : x = [] := List.length_eq_zero_iff.mp hk
      rw [absorb_of_lt s (show ([] : List α).length < n from hn)]
      rfl
  | succ k ih =>
      have hle : n ≤ x.length := by
        rw [hk]
        exact Nat.le_mul_of_pos_right n (Nat.succ_pos k)
      have htake : (x.take n).length = n := List.length_take_of_le hle
      have hdrop : (x.drop n).length = n * k := by
        rw [List.length_drop, hk, Nat.mul_succ, Nat.add_sub_cancel]
      have hsplit := List.take_append_drop n x
      rw [← hsplit, List.append_assoc, absorb_block hn s htake, absorb_block hn s htake]
      exact ih (f s (x.take n)) hdrop

/-- A stream is its whole blocks and what is left over. -/
theorem exists_blocks (n : Nat) (x : List α) : ∃ blocks, x = blocks ++ leftover n x ∧ n ∣ blocks.length := by
  have hle : x.length / n * n ≤ x.length := Nat.div_mul_le_self _ _
  refine ⟨x.take (x.length / n * n), (List.take_append_drop _ x).symm, ?_⟩
  rw [List.length_take_of_le hle]
  exact Nat.dvd_mul_left n _

/-- **A stream in pieces**: the state goes on from where it is, with the leftover in front of the next piece. -/
theorem absorb_append (hn : 0 < n) (s : σ) (x y : List α) :
    absorb n f s (x ++ y) = absorb n f (absorb n f s x) (leftover n x ++ y) := by
  obtain ⟨blocks, hx, hdvd⟩ := exists_blocks n x
  have hstate : absorb n f s x = absorb n f s blocks := by
    rw [hx, absorb_append_left hn s hdvd]
    refine absorb_of_lt _ ?_
    rw [length_leftover]
    exact Nat.mod_lt _ hn
  rw [hstate, ← absorb_append_left hn s hdvd, ← List.append_assoc, ← hx]

theorem leftover_append (hn : 0 < n) (x y : List α) :
    leftover n (x ++ y) = leftover n (leftover n x ++ y) := by
  obtain ⟨blocks, hx, hdvd⟩ := exists_blocks n x
  calc leftover n (x ++ y) = leftover n (blocks ++ (leftover n x ++ y)) := by rw [← List.append_assoc, ← hx]
    _ = leftover n (leftover n x ++ y) := leftover_append_left hn hdvd _

/-- One block is left when what is in front of it is whole. -/
theorem absorb_one (hn : 0 < n) (s : σ) {block : List α} (h : block.length = n) : absorb n f s block = f s block := by
  have hend := absorb_block (f := f) hn s h []
  rw [List.append_nil] at hend
  exact hend.trans (absorb_of_lt _ hn)

end Lib
