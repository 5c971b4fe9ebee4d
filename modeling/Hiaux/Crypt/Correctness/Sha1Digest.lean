import Mathlib.Data.List.GetD
import Hiaux.Lib.Blocks
import Hiaux.Lib.ByteOrder
import Hiaux.Crypt.Sha1

/-!
# `Crypt.Correctness.Sha1Digest` — `sha1::calc` computes SHA-1

The standard pads the message and folds `compress` over its blocks; a block is expanded to eighty words first
(`schedule`). The source keeps the words in one array that it uses for block after block: the first sixteen are those
of the block (`Loaded`), and a round writes its word before it reads it (`innerHash_loaded`). The length is one word of
the last block where the standard has two, so the digest is right up to `2 ^ 29` bytes (`calcBytes_eq`).
-/

namespace Hiaux
namespace Sha1

open Lib

/-! ## The standard -/

/-- A word of a block, the highest byte first; behind the end there are zeros. -/
def bigWord (block : Bytes) (t : Nat) : UInt32 :=
  wordOf (block.getD (4 * t + 3) 0) (block.getD (4 * t + 2) 0) (block.getD (4 * t + 1) 0) (block.getD (4 * t) 0)

/-- The message schedule. -/
def schedule (block : Bytes) (t : Nat) : UInt32 :=
  if t < 16 then bigWord block t
  else rotl 1
    (schedule block (t - 3) ^^^ schedule block (t - 8) ^^^ schedule block (t - 14) ^^^ schedule block (t - 16))

/-- The functions of the standard. -/
def ch (x y z : UInt32) : UInt32 := (x &&& y) ^^^ (~~~ x &&& z)

def parity (x y z : UInt32) : UInt32 := x ^^^ y ^^^ z

def maj (x y z : UInt32) : UInt32 := (x &&& y) ^^^ (x &&& z) ^^^ (y &&& z)

/-- The function and the constant of an operation. -/
def funcAt (t : Nat) : (UInt32 → UInt32 → UInt32 → UInt32) × UInt32 :=
  if t < 20 then (ch, 0x5a827999)
  else if t < 40 then (parity, 0x6ed9eba1)
  else if t < 60 then (maj, 0x8f1bbcdc)
  else (parity, 0xca62c1d6)

/-- One of the eighty operations. -/
def operation (block : Bytes) (x : Words) (t : Nat) : Words :=
  ⟨rotl 5 x.a + (funcAt t).1 x.b x.c x.d + x.e + (funcAt t).2 + schedule block t, x.a, rotl 30 x.b, x.c, x.d⟩

def compress (x : Words) (block : Bytes) : Words :=
  let y := (List.range 80).foldl (operation block) x
  ⟨x.a + y.a, x.b + y.b, x.c + y.c, x.d + y.d, x.e + y.e⟩

/-- The padding: a bit, zeros up to eight bytes before the end of a block, and the length in bits. -/
def padding (length : Nat) : Bytes :=
  0x80 :: List.replicate ((119 - length % 64) % 64) 0 ++
    (List.range 8).map (fun k => UInt8.ofNat (8 * length / 256 ^ (7 - k)))

/-- The words a message starts from. -/
def initWords : Words := ⟨0x67452301, 0xefcdab89, 0x98badcfe, 0x10325476, 0xc3d2e1f0⟩

/-- The digest is the words, the highest byte first. -/
def digestOf (x : Words) : Bytes :=
  bigEndian x.a ++ bigEndian x.b ++ bigEndian x.c ++ bigEndian x.d ++ bigEndian x.e

/-- **The digest of a message.** -/
def sha1 (message : Bytes) : Bytes :=
  digestOf (absorb 64 compress initWords (message ++ padding message.length))

/-! ## A round of the source -/

theorem ch_eq (x y z : UInt32) : ch x y z = (x &&& y) ||| (~~~ x &&& z) := by
  apply UInt32.toBitVec_inj.mp
  apply BitVec.eq_of_getLsbD_eq
  intro i hi
  simp only [ch, UInt32.toBitVec_xor, UInt32.toBitVec_and, UInt32.toBitVec_or, UInt32.toBitVec_not,
    BitVec.getLsbD_xor, BitVec.getLsbD_and, BitVec.getLsbD_or, BitVec.getLsbD_not, hi, decide_true, Bool.true_and]
  cases x.toBitVec.getLsbD i <;> cases y.toBitVec.getLsbD i <;> cases z.toBitVec.getLsbD i <;> rfl

theorem maj_eq (x y z : UInt32) : maj x y z = (x &&& y) ||| (x &&& z) ||| (y &&& z) := by
  apply UInt32.toBitVec_inj.mp
  apply BitVec.eq_of_getLsbD_eq
  intro i hi
  simp only [maj, UInt32.toBitVec_xor, UInt32.toBitVec_and, UInt32.toBitVec_or, BitVec.getLsbD_xor,
    BitVec.getLsbD_and, BitVec.getLsbD_or]
  cases x.toBitVec.getLsbD i <;> cases y.toBitVec.getLsbD i <;> cases z.toBitVec.getLsbD i <;> rfl

theorem roundFunc_eq (t : Nat) (x : Words) : roundFunc t x = ((funcAt t).1 x.b x.c x.d, (funcAt t).2) := by
  unfold roundFunc funcAt
  split
  · exact congrArg (·, _) (ch_eq x.b x.c x.d).symm
  · split
    · rfl
    · split
      · exact congrArg (·, _) (maj_eq x.b x.c x.d).symm
      · rfl

theorem rol_eq (x : UInt32) {s : UInt32} (h : s.toNat < 32) : rol x s = rotl s.toNat x := or_shifts_eq_rotl x h

theorem bigWord_eq (block : Bytes) (t : Nat) : bigWord block t =
    byteAt block (4 * t + 3) ||| (byteAt block (4 * t + 2) <<< 8) ||| (byteAt block (4 * t + 1) <<< 16) |||
      (byteAt block (4 * t) <<< 24) :=
  (or_shifts_eq_wordOf _ _ _ _).symm

theorem storeHash_eq (x : Words) : storeHash x = digestOf x := by
  rw [digestOf, bigEndian_eq, bigEndian_eq, bigEndian_eq, bigEndian_eq, bigEndian_eq]
  rfl

/-- The array holds the words of a block; what stands behind them is left from before. -/
structure Loaded (w : Array UInt32) (block : Bytes) : Prop where
  size : w.size = 80
  word : ∀ i < 16, w.getD i 0 = bigWord block i

theorem getD_setIfInBounds {w : Array UInt32} {i : Nat} (h : i < w.size) (v : UInt32) (j : Nat) :
    (w.setIfInBounds i v).getD j 0 = if j = i then v else w.getD j 0 := by
  rw [Array.getD_eq_getD_getElem?, Array.getD_eq_getD_getElem?, Array.getElem?_setIfInBounds]
  by_cases hj : j = i
  · subst hj
    simp [h]
  · rw [if_neg (Ne.symm hj), if_neg hj]

/-- A round: the words of the schedule grow by one. -/
theorem innerRound_eq {block : Bytes} {x : Words} {w : Array UInt32} {t : Nat} (ht : t < 80) (hsize : w.size = 80)
    (hword : ∀ i < max t 16, w.getD i 0 = schedule block i) :
    (innerRound (x, w) t).1 = operation block x t ∧ (innerRound (x, w) t).2.size = 80 ∧
      ∀ i < max (t + 1) 16, (innerRound (x, w) t).2.getD i 0 = schedule block i := by
  unfold innerRound operation
  have hrol1 : ∀ v : UInt32, rol v 1 = rotl 1 v := fun v => rol_eq v (by decide)
  have hrol5 : ∀ v : UInt32, rol v 5 = rotl 5 v := fun v => rol_eq v (by decide)
  have hrol30 : ∀ v : UInt32, rol v 30 = rotl 30 v := fun v => rol_eq v (by decide)
  simp only [roundFunc_eq, hrol1, hrol5, hrol30]
  by_cases h16 : t < 16
  · have hnow := hword t (lt_of_lt_of_le h16 (Nat.le_max_right _ _))
    simp only [h16, if_true, hnow]
    refine ⟨trivial, hsize, fun i hi => hword i ?_⟩
    omega
  · have hbefore : ∀ k, 0 < k → k ≤ 16 → w.getD (t - k) 0 = schedule block (t - k) := fun k h0 h =>
      hword (t - k) (by omega)
    have hnext : rotl 1 (w.getD (t - 3) 0 ^^^ w.getD (t - 8) 0 ^^^ w.getD (t - 14) 0 ^^^ w.getD (t - 16) 0) =
        schedule block t := by
      rw [hbefore 3 (by decide) (by decide), hbefore 8 (by decide) (by decide), hbefore 14 (by decide) (by decide),
        hbefore 16 (by decide) (by decide)]
      conv_rhs => rw [schedule, if_neg h16]
    have hread := getD_setIfInBounds (w := w) (i := t) (by omega) (schedule block t)
    simp only [h16, if_false, hnext, hread, if_true]
    refine ⟨trivial, by rw [Array.size_setIfInBounds, hsize], fun i hi => ?_⟩
    by_cases hit : i = t
    · rw [if_pos hit, hit]
    · rw [if_neg hit]
      exact hword i (by omega)

/-- **A block**: `innerHash` folds it in, whatever stands in the array behind it. -/
theorem innerHash_loaded {w : Array UInt32} {block : Bytes} (h : Loaded w block) (x : Words) :
    (innerHash x w).1 = compress x block ∧ (innerHash x w).2.size = 80 := by
  have hrun : ∀ t ≤ 80, ((List.range t).foldl innerRound (x, w)).1 = (List.range t).foldl (operation block) x ∧
      ((List.range t).foldl innerRound (x, w)).2.size = 80 ∧
      ∀ i < max t 16, ((List.range t).foldl innerRound (x, w)).2.getD i 0 = schedule block i := by
    intro t
    induction t with
    | zero =>
        intro _
        refine ⟨rfl, h.size, fun i hi => ?_⟩
        have h16 : i < 16 := by omega
        rw [schedule, if_pos h16]
        exact h.word i h16
    | succ t ih =>
        intro ht
        obtain ⟨hwords, hsize, hword⟩ := ih (by omega)
        have hround := innerRound_eq (x := ((List.range t).foldl innerRound (x, w)).1) (by omega) hsize hword
        rw [List.range_succ, List.foldl_append, List.foldl_append]
        rw [hwords] at hround
        have hpair : (List.range t).foldl innerRound (x, w) =
            ((List.range t).foldl (operation block) x, ((List.range t).foldl innerRound (x, w)).2) :=
          Prod.ext hwords rfl
        rw [List.foldl_cons, List.foldl_nil, List.foldl_cons, List.foldl_nil, hpair]
        exact hround
  obtain ⟨hwords, hsize, -⟩ := hrun 80 (Nat.le_refl _)
  refine ⟨?_, hsize⟩
  unfold innerHash compress
  rw [← hwords]

/-! ## Loading a block -/

theorem byteAt_append (p : Bytes) (b : UInt8) (j : Nat) :
    byteAt (p ++ [b]) j = if j = p.length then b.toUInt32 else byteAt p j := by
  unfold byteAt
  rw [List.getD_eq_getElem?_getD, List.getD_eq_getElem?_getD]
  rcases Nat.lt_trichotomy j p.length with h | h | h
  · rw [if_neg (Nat.ne_of_lt h), List.getElem?_append_left h]
  · rw [if_pos h, h, List.getElem?_concat_length]
    rfl
  · have hout : (p ++ [b]).length ≤ j := by
      rw [List.length_append]
      exact h
    rw [if_neg (Nat.ne_of_gt h), List.getElem?_eq_none hout, List.getElem?_eq_none (Nat.le_of_lt h)]

theorem byteAt_length (p : Bytes) {j : Nat} (h : p.length ≤ j) : byteAt p j = 0 := by
  rw [byteAt, List.getD_eq_getElem?_getD, List.getElem?_eq_none h]
  rfl

/-- Setting one word after the other. -/
theorem getD_foldl_set {w : Array UInt32} (v : Nat → UInt32) {k : Nat} (hk : k ≤ w.size) :
    ((List.range k).foldl (fun w i => w.setIfInBounds i (v i)) w).size = w.size ∧
      ∀ j, ((List.range k).foldl (fun w i => w.setIfInBounds i (v i)) w).getD j 0 =
        if j < k then v j else w.getD j 0 := by
  induction k with
  | zero => exact ⟨rfl, fun j => (if_neg (Nat.not_lt_zero j)).symm⟩
  | succ k ih =>
      obtain ⟨hsize, hword⟩ := ih (by omega)
      rw [List.range_succ, List.foldl_append, List.foldl_cons, List.foldl_nil]
      refine ⟨by rw [Array.size_setIfInBounds, hsize], fun j => ?_⟩
      rw [getD_setIfInBounds (by omega), hword]
      by_cases hj : j = k
      · rw [if_pos hj, if_pos (by omega), hj]
      · rw [if_neg hj]
        by_cases hlt : j < k
        · rw [if_pos hlt, if_pos (by omega)]
        · rw [if_neg hlt, if_neg (by omega)]

/-- The loop that reads a whole block. -/
theorem loaded_loadBlock {w : Array UInt32} (hsize : w.size = 80) (src : Bytes) (start : Nat) :
    Loaded (loadBlock src start w) ((src.drop start).take 64) := by
  obtain ⟨hset, hword⟩ := getD_foldl_set (w := w) (k := 16) (fun i => byteAt src (start + 4 * i + 3) |||
    (byteAt src (start + 4 * i + 2) <<< 8) ||| (byteAt src (start + 4 * i + 1) <<< 16) |||
      (byteAt src (start + 4 * i) <<< 24)) (by omega)
  refine ⟨hset.trans hsize, fun i hi => ?_⟩
  have hbyte : ∀ k < 4, byteAt ((src.drop start).take 64) (4 * i + k) = byteAt src (start + 4 * i + k) := by
    intro k hk
    unfold byteAt
    rw [List.getD_eq_getElem?_getD, List.getD_eq_getElem?_getD, List.getElem?_take_of_lt (by omega),
      List.getElem?_drop, ← Nat.add_assoc]
  refine (hword i).trans ?_
  rw [if_pos hi, bigWord_eq, hbyte 3 (by decide), hbyte 2 (by decide), hbyte 1 (by decide)]
  have hfirst := hbyte 0 (by decide)
  rw [Nat.add_zero, Nat.add_zero] at hfirst
  rw [hfirst]

/-- A cleared array holds the empty block. -/
theorem loaded_clearWBuffert {w : Array UInt32} (hsize : w.size = 80) : Loaded (clearWBuffert w) [] := by
  obtain ⟨hset, hword⟩ := getD_foldl_set (w := w) (k := 16) (fun _ => 0) (by omega)
  refine ⟨hset.trans hsize, fun i hi => (hword i).trans ?_⟩
  rw [if_pos hi, bigWord_eq, byteAt_length [] (Nat.zero_le _), byteAt_length [] (Nat.zero_le _),
    byteAt_length [] (Nat.zero_le _), byteAt_length [] (Nat.zero_le _)]
  decide

/-- A byte behind a block only changes its own word. -/
theorem bigWord_append (p : Bytes) (b : UInt8) (t : Nat) :
    bigWord (p ++ [b]) t =
      if t = p.length / 4 then bigWord p t ||| (b.toUInt32 <<< UInt32.ofNat ((3 - p.length % 4) * 8))
      else bigWord p t := by
  rw [bigWord_eq, bigWord_eq]
  simp only [byteAt_append]
  by_cases ht : t = p.length / 4
  · have hpos := Nat.div_add_mod p.length 4
    rw [← ht] at hpos
    rw [if_pos ht]
    -- The place of the byte in its word; what stands behind it is zero.
    have hzero : ∀ s : UInt32, (0 : UInt32) <<< s = 0 := fun s => UInt32.zero_shiftLeft
    rcases (show p.length % 4 = 0 ∨ p.length % 4 = 1 ∨ p.length % 4 = 2 ∨ p.length % 4 = 3 by omega) with h | h | h | h
    · rw [byteAt_length p (show p.length ≤ 4 * t + 3 by omega), byteAt_length p (show p.length ≤ 4 * t + 2 by omega),
        byteAt_length p (show p.length ≤ 4 * t + 1 by omega), byteAt_length p (show p.length ≤ 4 * t by omega), h,
        if_neg (by omega), if_neg (by omega), if_neg (by omega), if_pos (by omega)]
      simp only [hzero, UInt32.zero_or]
      rfl
    · rw [byteAt_length p (show p.length ≤ 4 * t + 3 by omega), byteAt_length p (show p.length ≤ 4 * t + 2 by omega),
        byteAt_length p (show p.length ≤ 4 * t + 1 by omega), h,
        if_neg (by omega), if_neg (by omega), if_pos (by omega), if_neg (by omega)]
      simp only [hzero, UInt32.zero_or]
      exact UInt32.or_comm _ _
    · rw [byteAt_length p (show p.length ≤ 4 * t + 3 by omega), byteAt_length p (show p.length ≤ 4 * t + 2 by omega), h,
        if_neg (by omega), if_pos (by omega), if_neg (by omega), if_neg (by omega)]
      simp only [hzero, UInt32.zero_or]
      exact (UInt32.or_assoc _ _ _).trans (UInt32.or_comm _ _)
    · rw [byteAt_length p (show p.length ≤ 4 * t + 3 by omega), h,
        if_pos (by omega), if_neg (by omega), if_neg (by omega), if_neg (by omega)]
      simp only [UInt32.zero_or]
      refine (UInt32.or_assoc _ _ _).trans ((UInt32.or_assoc _ _ _).trans ?_)
      refine (UInt32.or_comm _ _).trans ?_
      rw [← UInt32.or_assoc]
      exact congrArg _ UInt32.shiftLeft_zero.symm
  · rw [if_neg ht, if_neg (by omega), if_neg (by omega), if_neg (by omega), if_neg (by omega)]

theorem loaded_orByte {w : Array UInt32} {p : Bytes} (h : Loaded w p) (hp : p.length < 64) (b : UInt8) :
    Loaded (orByte w p.length b.toUInt32) (p ++ [b]) := by
  have hword := h.word (p.length / 4) (by omega)
  have hset := getD_setIfInBounds (w := w) (i := p.length / 4) (by rw [h.size]; omega)
    (bigWord p (p.length / 4) ||| (b.toUInt32 <<< UInt32.ofNat ((3 - p.length % 4) * 8)))
  unfold orByte
  rw [hword]
  refine ⟨by rw [Array.size_setIfInBounds, h.size], fun i hi => ?_⟩
  rw [hset, bigWord_append]
  by_cases hi' : i = p.length / 4
  · rw [if_pos hi', if_pos hi', hi']
  · rw [if_neg hi', if_neg hi']
    exact h.word i hi

/-! ## The message -/

/-- The loop over the whole blocks. -/
theorem foldl_blocks (src : Bytes) (k : Nat) (hk : 64 * k ≤ src.length) {w : Array UInt32} (hsize : w.size = 80) :
    ((List.range k).foldl (fun (x : Words × Array UInt32) block => innerHash x.1 (loadBlock src (64 * block) x.2))
        (initWords, w)).1 = absorb 64 compress initWords (src.take (64 * k)) ∧
      ((List.range k).foldl (fun (x : Words × Array UInt32) block => innerHash x.1 (loadBlock src (64 * block) x.2))
        (initWords, w)).2.size = 80 := by
  induction k with
  | zero =>
      refine ⟨(absorb_of_lt initWords ?_).symm, hsize⟩
      exact Nat.succ_pos 63
  | succ k ih =>
      obtain ⟨hwords, hsize'⟩ := ih (by omega)
      have hblock := loaded_loadBlock hsize' src (64 * k)
      obtain ⟨hhash, hkept⟩ := innerHash_loaded hblock (absorb 64 compress initWords (src.take (64 * k)))
      have hfront : (src.take (64 * k)).length = 64 * k := List.length_take_of_le (by omega)
      have hlength : ((src.drop (64 * k)).take 64).length = 64 :=
        List.length_take_of_le (by rw [List.length_drop]; omega)
      rw [List.range_succ, List.foldl_append, List.foldl_cons, List.foldl_nil, hwords]
      refine ⟨?_, hkept⟩
      rw [hhash, Nat.mul_succ, List.take_add, absorb_append_left (by decide) _ (Dvd.intro k hfront.symm),
        absorb_one (by decide) _ hlength]

/-- The loop over the bytes of the last block. -/
theorem foldl_orByte (src : Bytes) (start k : Nat) (hk : start + k ≤ src.length) (hlt : k < 64) {w : Array UInt32}
    (h : Loaded w []) :
    Loaded ((List.range k).foldl (fun w last => orByte w last (byteAt src (last + start))) w)
      ((src.drop start).take k) := by
  induction k with
  | zero => exact h
  | succ k ih =>
      have hin : k < (src.drop start).length := by
        rw [List.length_drop]
        omega
      have hfront : ((src.drop start).take k).length = k := List.length_take_of_le (Nat.le_of_lt hin)
      have hbyte : byteAt src (k + start) = ((src.drop start)[k]).toUInt32 := by
        rw [byteAt, List.getD_eq_getElem?_getD, List.getElem?_eq_getElem (by omega), List.getElem_drop]
        simp only [Nat.add_comm k start, Option.getD_some]
      have hstep := loaded_orByte (ih (by omega) (by omega)) (by rw [hfront]; omega) (src.drop start)[k]
      rw [hfront] at hstep
      rw [List.range_succ, List.foldl_append, List.foldl_cons, List.foldl_nil, hbyte, List.take_succ_eq_append_getElem hin]
      exact hstep

/-- The length in bits, when it fits into one word. -/
theorem bits_eq {length : Nat} (h : length < 2 ^ 29) :
    (List.range 8).map (fun k => UInt8.ofNat (8 * length / 256 ^ (7 - k))) =
      List.replicate 4 0 ++ [UInt8.ofNat (8 * length / 2 ^ 24), UInt8.ofNat (8 * length / 2 ^ 16),
        UInt8.ofNat (8 * length / 2 ^ 8), UInt8.ofNat (8 * length)] := by
  have hhigh : ∀ k < 4, UInt8.ofNat (8 * length / 256 ^ (7 - k)) = 0 := by
    intro k hk
    have hzero : 8 * length / 256 ^ (7 - k) = 0 := by
      apply Nat.div_eq_of_lt
      calc 8 * length < 256 ^ 4 := by omega
        _ ≤ 256 ^ (7 - k) := Nat.pow_le_pow_right (by decide) (by omega)
    rw [hzero]
    rfl
  simp only [List.range_succ, List.range_zero, List.nil_append, List.cons_append, List.map_cons, List.map_nil,
    hhigh 0 (by decide), hhigh 1 (by decide), hhigh 2 (by decide), hhigh 3 (by decide), List.replicate]
  norm_num

theorem byteAt_zeros (p : Bytes) (k j : Nat) : byteAt (p ++ List.replicate k 0) j = byteAt p j := by
  rcases Nat.lt_or_ge j p.length with h | h
  · unfold byteAt
    rw [List.getD_append _ _ _ _ h]
  · rw [byteAt_length p h]
    unfold byteAt
    rw [List.getD_append_right _ _ _ _ h, List.getD_eq_getElem?_getD, List.getElem?_replicate]
    split <;> rfl

/-- The last block: zeros, and the length in the last word. -/
theorem loaded_length {w : Array UInt32} {p : Bytes} (h : Loaded w p) (hp : p.length ≤ 56) {length : Nat}
    (hlength : length < 2 ^ 29) :
    Loaded (w.setIfInBounds 15 (UInt32.ofInt (length * 8)))
      (p ++ List.replicate (56 - p.length) 0 ++
        (List.range 8).map (fun k => UInt8.ofNat (8 * length / 256 ^ (7 - k)))) := by
  have hfront : (p ++ List.replicate (60 - p.length) 0).length = 60 := by
    rw [List.length_append, List.length_replicate]
    omega
  have hblock : p ++ List.replicate (56 - p.length) 0 ++
      (List.range 8).map (fun k => UInt8.ofNat (8 * length / 256 ^ (7 - k))) =
      (p ++ List.replicate (60 - p.length) 0) ++ [UInt8.ofNat (8 * length / 2 ^ 24), UInt8.ofNat (8 * length / 2 ^ 16),
        UInt8.ofNat (8 * length / 2 ^ 8), UInt8.ofNat (8 * length)] := by
    have hzeros : 60 - p.length = 56 - p.length + 4 := by omega
    rw [bits_eq hlength, hzeros, List.replicate_add]
    simp only [List.append_assoc]
  have hread := getD_setIfInBounds (w := w) (i := 15) (by rw [h.size]; decide) (UInt32.ofInt (length * 8))
  rw [hblock]
  refine ⟨by rw [Array.size_setIfInBounds, h.size], fun i hi => ?_⟩
  rw [hread]
  by_cases hi' : i = 15
  · -- The last word is the length, put together from its bytes.
    have hlast : ∀ k, byteAt ((p ++ List.replicate (60 - p.length) 0) ++ [UInt8.ofNat (8 * length / 2 ^ 24),
        UInt8.ofNat (8 * length / 2 ^ 16), UInt8.ofNat (8 * length / 2 ^ 8), UInt8.ofNat (8 * length)]) (60 + k) =
        byteAt [UInt8.ofNat (8 * length / 2 ^ 24), UInt8.ofNat (8 * length / 2 ^ 16),
          UInt8.ofNat (8 * length / 2 ^ 8), UInt8.ofNat (8 * length)] k := by
      intro k
      unfold byteAt
      rw [List.getD_append_right _ _ _ _ (by omega), hfront, Nat.add_sub_cancel_left]
    have hbits : (UInt32.ofNat (8 * length)).toNat = 8 * length := by
      rw [UInt32.toNat_ofNat']
      exact Nat.mod_eq_of_lt (by omega)
    have hbyte : ∀ s : UInt32, s.toNat < 32 →
        UInt8.ofNat (8 * length / 2 ^ s.toNat) = (UInt32.ofNat (8 * length) >>> s).toUInt8 := by
      intro s hs
      rw [toUInt8_shiftRight _ hs, hbits]
    have hwhole : UInt32.ofInt (length * 8) = UInt32.ofNat (8 * length) := by
      have hmod : ((length : Int) * 8 % 2 ^ 32).toNat = 8 * length := by omega
      rw [UInt32.ofInt, hmod]
    rw [if_pos hi', hi', hwhole, bigWord_eq, hlast 3, hlast 2, hlast 1]
    have hzero := hlast 0
    rw [Nat.add_zero] at hzero
    rw [hzero]
    have hb₁ := hbyte 24 (by decide)
    have hb₂ := hbyte 16 (by decide)
    have hb₃ := hbyte 8 (by decide)
    have hb₄ : UInt8.ofNat (8 * length) = (UInt32.ofNat (8 * length)).toUInt8 := by rw [toUInt8_eq, hbits]
    simp only [UInt32.reduceToNat] at hb₁ hb₂ hb₃
    rw [hb₁, hb₂, hb₃, hb₄]
    exact ((or_shifts_eq_wordOf _ _ _ _).trans (wordOf_bytes _)).symm
  · rw [if_neg hi', h.word i hi]
    have hbyte : ∀ j < 60, ∀ t, byteAt ((p ++ List.replicate (60 - p.length) 0) ++ t) j = byteAt p j := by
      intro j hj t
      have hin : byteAt ((p ++ List.replicate (60 - p.length) 0) ++ t) j =
          byteAt (p ++ List.replicate (60 - p.length) 0) j := by
        unfold byteAt
        rw [List.getD_append _ _ _ _ (by omega)]
      rw [hin, byteAt_zeros]
    rw [bigWord_eq, bigWord_eq, hbyte _ (by omega), hbyte _ (by omega), hbyte _ (by omega), hbyte _ (by omega)]

/-- Zeros behind a block are not written. -/
theorem Loaded.zeros {w : Array UInt32} {p : Bytes} (h : Loaded w p) (k : Nat) : Loaded w (p ++ List.replicate k 0) := by
  refine ⟨h.size, fun i hi => ?_⟩
  rw [h.word i hi]
  rw [bigWord_eq, bigWord_eq, byteAt_zeros, byteAt_zeros, byteAt_zeros, byteAt_zeros]

variable {w : Array UInt32} {rest : Bytes} {length : Nat}

/-- The end, when there is room for the length behind what is left over. -/
theorem innerHash_length (hload : Loaded w (rest ++ [0x80])) (hrest : rest.length = length % 64)
    (hroom : length % 64 < 56) (hlength : length < 2 ^ 29) (x : Words) :
    (innerHash x (w.setIfInBounds 15 (UInt32.ofInt (length * 8)))).1 =
      absorb 64 compress x (rest ++ padding length) := by
  have hmarked : (rest ++ [0x80]).length = length % 64 + 1 := by
    rw [List.length_append, hrest]
    rfl
  have hblock := loaded_length hload (by omega) hlength
  have hzeros : (119 - length % 64) % 64 = 56 - (length % 64 + 1) := by omega
  have hpadded : rest ++ padding length = rest ++ [0x80] ++ List.replicate (56 - (rest ++ [0x80]).length) 0 ++
      (List.range 8).map (fun k => UInt8.ofNat (8 * length / 256 ^ (7 - k))) := by
    rw [padding, hzeros, hmarked]
    simp only [List.append_assoc, List.cons_append, List.nil_append]
  have hwhole : (rest ++ padding length).length = 64 := by
    rw [hpadded, List.length_append, List.length_append, hmarked, List.length_replicate, List.length_map,
      List.length_range]
    omega
  rw [(innerHash_loaded hblock x).1, ← hpadded, absorb_one (by decide) x hwhole]

/-- The end, when the length needs a block of its own. -/
theorem innerHash_block (hload : Loaded w (rest ++ [0x80])) (hrest : rest.length = length % 64)
    (hroom : 56 ≤ length % 64) (hlength : length < 2 ^ 29) (x : Words) :
    (innerHash (innerHash x w).1 ((clearWBuffert (innerHash x w).2).setIfInBounds 15 (UInt32.ofInt (length * 8)))).1 =
      absorb 64 compress x (rest ++ padding length) := by
  obtain ⟨hfirst, hsize⟩ := innerHash_loaded (hload.zeros (63 - length % 64)) x
  have hsecond := loaded_length (loaded_clearWBuffert hsize) (Nat.zero_le 56) hlength
  have hzeros : (119 - length % 64) % 64 = 63 - length % 64 + 56 := by omega
  have hpadded : rest ++ padding length = (rest ++ [0x80] ++ List.replicate (63 - length % 64) 0) ++
      ([] ++ List.replicate (56 - ([] : Bytes).length) 0 ++
        (List.range 8).map (fun k => UInt8.ofNat (8 * length / 256 ^ (7 - k)))) := by
    rw [padding, hzeros, List.replicate_add]
    simp only [List.append_assoc, List.cons_append, List.nil_append, List.length_nil, Nat.sub_zero]
  have hlength₁ : (rest ++ [0x80] ++ List.replicate (63 - length % 64) 0).length = 64 := by
    rw [List.length_append, List.length_append, hrest, List.length_replicate, List.length_singleton]
    omega
  have hlength₂ : ([] ++ List.replicate (56 - ([] : Bytes).length) 0 ++
      (List.range 8).map (fun k => UInt8.ofNat (8 * length / 256 ^ (7 - k)))).length = 64 := by
    rw [List.length_append, List.length_append, List.length_replicate, List.length_map, List.length_range,
      List.length_nil]
  rw [(innerHash_loaded hsecond _).1, hfirst, hpadded, absorb_block (by decide) x hlength₁,
    absorb_one (by decide) _ hlength₂]

theorem calcHash_eq {src : Bytes} (h : src.length < 2 ^ 29) : calcHash src src.length = sha1 src := by
  have hblocks := foldl_blocks src (src.length / 64) (by omega)
    (w := Array.replicate 80 0) Array.size_replicate
  -- The bytes behind the whole blocks.
  have hrest : src.length - 64 * (src.length / 64) = src.length % 64 := by omega
  have hleft : leftover 64 src = (src.drop (64 * (src.length / 64))).take (src.length % 64) := by
    rw [leftover, Nat.mul_comm, List.take_of_length_le]
    rw [List.length_drop]
    omega
  have hlength := length_leftover (n := 64) src
  obtain ⟨hwords, hsize⟩ := hblocks
  have hfull : absorb 64 compress initWords src = absorb 64 compress initWords (src.take (64 * (src.length / 64))) := by
    have hfront : (src.take (64 * (src.length / 64))).length = 64 * (src.length / 64) :=
      List.length_take_of_le (by omega)
    have hshort : (src.drop (64 * (src.length / 64))).length < 64 := by
      rw [List.length_drop]
      omega
    have hsplit := absorb_append_left (f := compress) (show 0 < 64 by decide) initWords
      (Dvd.intro _ hfront.symm) (src.drop (64 * (src.length / 64)))
    rw [List.take_append_drop, absorb_of_lt _ hshort] at hsplit
    exact hsplit
  rw [← hfull] at hwords
  have hloop := foldl_orByte src (64 * (src.length / 64)) (src.length % 64) (by omega) (by omega)
    (loaded_clearWBuffert hsize)
  rw [← hleft] at hloop
  have hmark := loaded_orByte hloop (by omega) 0x80
  rw [hlength] at hmark
  have hdigest : sha1 src = digestOf (absorb 64 compress (absorb 64 compress initWords src)
      (leftover 64 src ++ padding src.length)) := by
    rw [sha1, absorb_append (by decide)]
  have hinit : (⟨0x67452301, 0xefcdab89, 0x98badcfe, 0x10325476, 0xc3d2e1f0⟩ : Words) = initWords := rfl
  have hbit : (0x80 : UInt8).toUInt32 = 0x80 := rfl
  rw [hbit] at hmark
  rw [hdigest]
  unfold calcHash
  simp only [Int.toNat_natCast, hrest, hinit, hwords, storeHash_eq]
  by_cases hroom : 56 ≤ src.length % 64
  · rw [← innerHash_block hmark hlength hroom h]
    simp only [hroom, if_true]
  · rw [← innerHash_length hmark hlength (Nat.lt_of_not_le hroom) h]
    simp only [hroom, if_false]

/-- **`sha1::calc` computes SHA-1** of every message whose length in bits fits into a word. -/
theorem calcBytes_eq {src : Bytes} (h : src.length < 2 ^ 29) : calcBytes src = sha1 src := by
  have hmod : Int.bmod src.length (2 ^ 32) = src.length := by
    rw [Int.bmod]
    split <;> omega
  rw [calcBytes, hmod, calcHash_eq h]

/-- The digest of `abc`. -/
theorem calcBytes_abc :
    calcBytes (ascii "abc") = sha1 (ascii "abc") ∧ sha1 (ascii "abc") = [0xa9, 0x99, 0x3e, 0x36, 0x47, 0x06, 0x81,
      0x6a, 0xba, 0x3e, 0x25, 0x71, 0x78, 0x50, 0xc2, 0x6c, 0x9c, 0xd0, 0xd8, 0x9d] := by
  have hcalc : calcBytes (ascii "abc") = sha1 (ascii "abc") := calcBytes_eq (by decide)
  refine ⟨hcalc, ?_⟩
  rw [← hcalc]
  decide +kernel

end Sha1
end Hiaux
