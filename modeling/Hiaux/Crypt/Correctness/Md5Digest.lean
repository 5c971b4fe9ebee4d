import Hiaux.Lib.Blocks
import Hiaux.Lib.ByteOrder
import Hiaux.Crypt.Md5

/-!
# `Crypt.Correctness.Md5Digest` — the digest of a message that arrives in pieces

The algorithm of the RFC pads the whole message and folds `compress` over its blocks. The context does the same
piece by piece: its words are those of the whole blocks so far, its buffer starts with what is left over, and
`lo` and `hi` count the bytes (`Holds`). So the digest does not depend on the pieces, and no array is left
(`md5Final_foldlM`). A line of the source assigns to the word whose turn it is where the RFC moves all four
(`turn`).
-/

namespace Hiaux
namespace Md5

open Lib

/-! ## The algorithm of the RFC -/

/-- The functions of the four rounds. -/
def roundFn (i : Nat) (b c d : UInt32) : UInt32 :=
  if i < 16 then (b &&& c) ||| (~~~ b &&& d)
  else if i < 32 then (b &&& d) ||| (c &&& ~~~ d)
  else if i < 48 then b ^^^ c ^^^ d
  else c ^^^ (b ||| ~~~ d)

/-- The word of the block that an operation adds. -/
def wordIndex (i : Nat) : Nat :=
  if i < 16 then i else if i < 32 then (5 * i + 1) % 16 else if i < 48 then (3 * i + 5) % 16 else 7 * i % 16

/-- The amount of the rotation. -/
def shift (i : Nat) : Nat :=
  [7, 12, 17, 22, 5, 9, 14, 20, 4, 11, 16, 23, 6, 10, 15, 21].getD (i / 16 * 4 + i % 4) 0

/-- The table of constants: the integer part of `2 ^ 32` times the sine of `i + 1`, without its sign. -/
def sine (i : Nat) : UInt32 :=
  [0xd76aa478, 0xe8c7b756, 0x242070db, 0xc1bdceee, 0xf57c0faf, 0x4787c62a, 0xa8304613, 0xfd469501,
    0x698098d8, 0x8b44f7af, 0xffff5bb1, 0x895cd7be, 0x6b901122, 0xfd987193, 0xa679438e, 0x49b40821,
    0xf61e2562, 0xc040b340, 0x265e5a51, 0xe9b6c7aa, 0xd62f105d, 0x02441453, 0xd8a1e681, 0xe7d3fbc8,
    0x21e1cde6, 0xc33707d6, 0xf4d50d87, 0x455a14ed, 0xa9e3e905, 0xfcefa3f8, 0x676f02d9, 0x8d2a4c8a,
    0xfffa3942, 0x8771f681, 0x6d9d6122, 0xfde5380c, 0xa4beea44, 0x4bdecfa9, 0xf6bb4b60, 0xbebfbc70,
    0x289b7ec6, 0xeaa127fa, 0xd4ef3085, 0x04881d05, 0xd9d4d039, 0xe6db99e5, 0x1fa27cf8, 0xc4ac5665,
    0xf4292244, 0x432aff97, 0xab9423a7, 0xfc93a039, 0x655b59c3, 0x8f0ccc92, 0xffeff47d, 0x85845dd1,
    0x6fa87e4f, 0xfe2ce6e0, 0xa3014314, 0x4e0811a1, 0xf7537e82, 0xbd3af235, 0x2ad7d2bb, 0xeb86d391].getD i 0

/-- A word of a block, the lowest byte first. -/
def blockWord (block : Bytes) (n : Nat) : UInt32 :=
  wordOf (block.getD (4 * n) 0) (block.getD (4 * n + 1) 0) (block.getD (4 * n + 2) 0) (block.getD (4 * n + 3) 0)

/-- One of the 64 operations. -/
def operation (block : Bytes) (w : Words) (i : Nat) : Words :=
  ⟨w.d, w.b + rotl (shift i) (w.a + roundFn i w.b w.c w.d + blockWord block (wordIndex i) + sine i), w.b, w.c⟩

def compress (w : Words) (block : Bytes) : Words :=
  let r := (List.range 64).foldl (operation block) w
  ⟨w.a + r.a, w.b + r.b, w.c + r.c, w.d + r.d⟩

/-- The padding: a bit, zeros up to eight bytes before the end of a block, and the length in bits. -/
def padding (length : Nat) : Bytes :=
  0x80 :: List.replicate ((119 - length % 64) % 64) 0 ++
    (List.range 8).map (fun k => UInt8.ofNat (8 * length / 256 ^ k))

/-- The words a message starts from. -/
def initWords : Words := ⟨0x67452301, 0xefcdab89, 0x98badcfe, 0x10325476⟩

/-- The digest is the words, the lowest byte first. -/
def digestOf (w : Words) : Bytes := littleEndian w.a ++ littleEndian w.b ++ littleEndian w.c ++ littleEndian w.d

/-- **The digest of a message.** -/
def md5 (message : Bytes) : Bytes :=
  digestOf (absorb 64 compress initWords (message ++ padding message.length))

/-! ## A line of the source and an operation of the RFC -/

theorem F_apply (x y z : UInt32) : Fn.F.apply x y z = (x &&& y) ||| (~~~ x &&& z) := by
  apply UInt32.toBitVec_inj.mp
  apply BitVec.eq_of_getLsbD_eq
  intro i hi
  simp only [Fn.apply, UInt32.toBitVec_xor, UInt32.toBitVec_and, UInt32.toBitVec_or, UInt32.toBitVec_not,
    BitVec.getLsbD_xor, BitVec.getLsbD_and, BitVec.getLsbD_or, BitVec.getLsbD_not, hi, decide_true, Bool.true_and]
  cases x.toBitVec.getLsbD i <;> cases y.toBitVec.getLsbD i <;> cases z.toBitVec.getLsbD i <;> rfl

theorem G_apply (x y z : UInt32) : Fn.G.apply x y z = (x &&& z) ||| (y &&& ~~~ z) := by
  apply UInt32.toBitVec_inj.mp
  apply BitVec.eq_of_getLsbD_eq
  intro i hi
  simp only [Fn.apply, UInt32.toBitVec_xor, UInt32.toBitVec_and, UInt32.toBitVec_or, UInt32.toBitVec_not,
    BitVec.getLsbD_xor, BitVec.getLsbD_and, BitVec.getLsbD_or, BitVec.getLsbD_not, hi, decide_true, Bool.true_and]
  cases x.toBitVec.getLsbD i <;> cases y.toBitVec.getLsbD i <;> cases z.toBitVec.getLsbD i <;> rfl

/-- The macro of an operation. -/
def fnAt (i : Nat) : Fn :=
  if i < 16 then .F else if i < 32 then .G else if i < 48 then (if i % 2 = 0 then .H else .H2) else .I

/-- The word that is assigned to. -/
def regAt (i : Nat) : Reg :=
  match i % 4 with
  | 0 => .a
  | 1 => .d
  | 2 => .c
  | _ => .b

def rowAt (i : Nat) : Row := ⟨fnAt i, regAt i, wordIndex i, sine i, UInt32.ofNat (shift i)⟩

theorem rounds_eq : rounds = (List.range 64).map rowAt := by decide

theorem fnAt_apply (i : Nat) (b c d : UInt32) : (fnAt i).apply b c d = roundFn i b c d := by
  unfold fnAt roundFn
  split
  · exact F_apply b c d
  · split
    · exact G_apply b c d
    · split
      · split
        · rfl
        · exact (UInt32.xor_assoc b c d).symm
      · rfl

theorem shift_lt (i : Nat) : shift i < 32 := by
  unfold shift
  rw [List.getD_eq_getElem?_getD]
  cases hget : [7, 12, 17, 22, 5, 9, 14, 20, 4, 11, 16, 23, 6, 10, 15, 21][i / 16 * 4 + i % 4]? with
  | none => decide
  | some s =>
      have hall : ∀ s ∈ [7, 12, 17, 22, 5, 9, 14, 20, 4, 11, 16, 23, 6, 10, 15, 21], s < 32 := by decide
      exact hall s (List.mem_of_getElem? hget)

theorem step_eq (i : Nat) (a b c d x : UInt32) :
    step (fnAt i) a b c d x (sine i) (UInt32.ofNat (shift i)) =
      b + rotl (shift i) (a + roundFn i b c d + x + sine i) := by
  have hmask : ∀ v : UInt32, v &&& 0xffffffff = v := fun v => UInt32.and_neg_one
  have hshift : (UInt32.ofNat (shift i)).toNat = shift i := by
    rw [UInt32.toNat_ofNat']
    exact Nat.mod_eq_of_lt (Nat.lt_trans (shift_lt i) (by decide))
  have hrotate : ∀ v : UInt32, (v <<< UInt32.ofNat (shift i)) ||| (v >>> (32 - UInt32.ofNat (shift i))) =
      rotl (shift i) v := by
    intro v
    rw [or_shifts_eq_rotl v (hshift.symm ▸ shift_lt i), hshift]
  simp only [step, hmask, hrotate, fnAt_apply]
  rw [UInt32.add_comm b, ← UInt32.add_assoc, ← UInt32.add_assoc]

theorem setWord_eq (block : Bytes) (n : Nat) : setWord block n = blockWord block n :=
  or_shifts_eq_wordOf _ _ _ _

/-- The words in the order in which the next operation takes them. -/
def turn (k : Nat) (w : Words) : Words :=
  match k % 4 with
  | 0 => w
  | 1 => ⟨w.d, w.a, w.b, w.c⟩
  | 2 => ⟨w.c, w.d, w.a, w.b⟩
  | _ => ⟨w.b, w.c, w.d, w.a⟩

theorem turn_row (block : Bytes) (w : Words) (i : Nat) :
    turn (i + 1) (w.row block (rowAt i)) = operation block (turn i w) i := by
  unfold turn operation Words.row rowAt regAt
  rw [setWord_eq]
  rcases (show i % 4 = 0 ∨ i % 4 = 1 ∨ i % 4 = 2 ∨ i % 4 = 3 by omega) with h | h | h | h
  · have hnext : (i + 1) % 4 = 1 := by omega
    simp only [h, hnext, step_eq]
  · have hnext : (i + 1) % 4 = 2 := by omega
    simp only [h, hnext, step_eq]
  · have hnext : (i + 1) % 4 = 3 := by omega
    simp only [h, hnext, step_eq]
  · have hnext : (i + 1) % 4 = 0 := by omega
    simp only [h, hnext, step_eq]

/-- The lines so far, and as many operations. -/
theorem turn_foldl (block : Bytes) (w : Words) (k : Nat) :
    turn k (((List.range k).map rowAt).foldl (Words.row block) w) = (List.range k).foldl (operation block) w := by
  induction k with
  | zero => rfl
  | succ k ih =>
      rw [List.range_succ, List.map_append, List.foldl_append, List.foldl_append, ← ih]
      exact turn_row block _ k

/-- **The unrolled rounds are those of the RFC.** -/
theorem bodyBlock_eq (w : Words) (block : Bytes) : bodyBlock w block = compress w block := by
  have hall := turn_foldl block w 64
  rw [← rounds_eq] at hall
  have hend : rounds.foldl (Words.row block) w = (List.range 64).foldl (operation block) w := hall
  unfold bodyBlock compress
  rw [hend]
  simp only [UInt32.add_comm]

/-! ## Copying and reading -/

/-- A copy that fits is made, and changes nothing else. -/
theorem memcpy_eq (buffer : Vector UInt8 64) (pos n : Nat) (data : Bytes) (hpos : pos + n ≤ 64)
    (hn : n ≤ data.length) :
    ∃ out, memcpy buffer pos data n = some out ∧
      out.toList = buffer.toList.take pos ++ data.take n ++ buffer.toList.drop (pos + n) := by
  refine ⟨_, dif_pos ⟨hpos, hn⟩, ?_⟩
  rfl

/-- `body` reads whole blocks, and stops behind the last one. -/
theorem body_eq {k : Nat} {w : Words} {data : Bytes} {size : UInt64} (hsize : size.toNat = 64 * (k + 1))
    (hle : size.toNat ≤ data.length) :
    body w data size = some (absorb 64 compress w (data.take size.toNat), data.drop size.toNat) := by
  induction k generalizing w data size with
  | zero =>
      have hstop : size - 64 = 0 := by
        apply UInt64.toNat_inj.mp
        rw [UInt64.toNat_sub_of_le _ _ (UInt64.le_iff_toNat_le.mpr (by simp; omega)), hsize]
        rfl
      have h64 : size.toNat = 64 := by omega
      have hblock : (data.take 64).length = 64 := List.length_take_of_le (by omega)
      rw [body, if_neg (by omega), if_pos hstop, h64, absorb_one (by decide) w hblock, bodyBlock_eq]
  | succ k ih =>
      have hrest : (size - 64).toNat = 64 * (k + 1) := by
        rw [UInt64.toNat_sub_of_le _ _ (UInt64.le_iff_toNat_le.mpr (by simp; omega)), hsize]
        simp
        omega
      have hgo : size - 64 ≠ 0 := by
        intro hzero
        rw [hzero] at hrest
        simp at hrest
      have hdata : (size - 64).toNat ≤ (data.drop 64).length := by
        rw [hrest, List.length_drop]
        omega
      have hblock : (data.take 64).length = 64 := List.length_take_of_le (by omega)
      have hall : size.toNat = 64 + (size - 64).toNat := by omega
      rw [body, if_neg (by omega), if_neg hgo, ih hrest hdata, hall, List.take_add, List.drop_drop,
        absorb_block (by decide) w hblock, bodyBlock_eq]

theorem bodyBuffer_eq (ctx : Md5Ctx) :
    ctx.bodyBuffer = some { ctx with words := compress ctx.words ctx.buffer.toList } := by
  have hread := @body_eq 0 ctx.words ctx.buffer.toList 64 rfl
    (by rw [Vector.length_toList]; decide)
  have hbuffer : ctx.buffer.toList.take (64 : UInt64).toNat = ctx.buffer.toList :=
    List.take_of_length_le (by rw [Vector.length_toList]; decide)
  rw [Md5Ctx.bodyBuffer, hread, hbuffer, absorb_one (by decide) _ (Vector.length_toList)]
  rfl

/-! ## Pieces -/

/-- What a context holds of the message so far. -/
structure Holds (message : Bytes) (ctx : Md5Ctx) : Prop where
  words : ctx.words = absorb 64 compress initWords message
  buffer : ctx.buffer.toList.take (message.length % 64) = leftover 64 message
  lo : ctx.lo.toNat = message.length % 2 ^ 29
  hi : ctx.hi.toNat = message.length / 2 ^ 29 % 2 ^ 32

variable {message data : Bytes} {size : UInt64} {ctx : Md5Ctx}

/-- **An initialised context**, whatever it held before. -/
theorem holds_md5Init (ctx : Md5Ctx) : Holds [] (md5Init ctx) where
  words := (absorb_of_lt initWords (by decide)).symm
  buffer := rfl
  lo := rfl
  hi := rfl

theorem and_63 (x : Nat) : x &&& 63 = x % 64 := Nat.and_two_pow_sub_one_eq_mod x 6

theorem Holds.used (h : Holds message ctx) : (ctx.lo &&& 0x3f).toNat = message.length % 64 := by
  rw [UInt32.toNat_and, h.lo]
  exact (and_63 _).trans (Nat.mod_mod_of_dvd _ (by decide))

/-- The two counters together count the bytes. -/
theorem Holds.count (h : Holds message ctx) (size : UInt64) :
    (ctx.count size).lo.toNat = (message.length + size.toNat) % 2 ^ 29 ∧
      (ctx.count size).hi.toNat = (message.length + size.toNat) / 2 ^ 29 % 2 ^ 32 := by
  have hmask : ∀ x : Nat, x &&& 0x1fffffff = x % 2 ^ 29 := fun x => Nat.and_two_pow_sub_one_eq_mod x 29
  have hlo : (ctx.count size).lo.toNat = (message.length + size.toNat) % 2 ^ 29 := by
    change ((ctx.lo.toUInt64 + size) &&& 0x1fffffff).toUInt32.toNat = _
    rw [UInt64.toNat_toUInt32, UInt64.toNat_and, UInt64.toNat_add, UInt32.toNat_toUInt64, h.lo]
    refine (congrArg (· % 2 ^ 32) (hmask _)).trans ?_
    omega
  refine ⟨hlo, ?_⟩
  have hshift : (size >>> 29).toUInt32.toNat = size.toNat / 2 ^ 29 % 2 ^ 32 := by
    rw [UInt64.toNat_toUInt32, UInt64.toNat_shiftRight]
    exact congrArg (· % 2 ^ 32) (Nat.shiftRight_eq_div_pow _ _)
  have hhi := h.hi
  have hold := h.lo
  change ((if (ctx.count size).lo < ctx.lo then ctx.hi + 1 else ctx.hi) + (size >>> 29).toUInt32).toNat = _
  rw [UInt32.toNat_add, hshift]
  by_cases hcarry : (ctx.count size).lo < ctx.lo
  · rw [if_pos hcarry, UInt32.toNat_add, hhi]
    have hlt := UInt32.lt_iff_toNat_lt.mp hcarry
    rw [hlo, hold] at hlt
    simp only [UInt32.reduceToNat]
    omega
  · rw [if_neg hcarry, hhi]
    have hge := mt UInt32.lt_iff_toNat_lt.mpr hcarry
    rw [hlo, hold] at hge
    omega

/-- The mask that cuts a size down to whole blocks. -/
theorem toNat_blocks (size : UInt64) : (size &&& ~~~ 0x3f).toNat = 64 * (size.toNat / 64) := by
  have hshift : 64 * (size.toNat / 64) = (size.toNat >>> 6) <<< 6 := by
    rw [Nat.shiftLeft_eq, Nat.shiftRight_eq_div_pow, Nat.mul_comm]
  have hmask : (~~~ (0x3f : UInt64)).toNat = (2 ^ 58 - 1) <<< 6 := by decide
  rw [hshift, UInt64.toNat_and, hmask]
  apply Nat.eq_of_testBit_eq
  intro i
  rw [Nat.testBit_and, Nat.testBit_shiftLeft, Nat.testBit_shiftLeft, Nat.testBit_shiftRight,
    Nat.testBit_two_pow_sub_one]
  by_cases h6 : 6 ≤ i
  · rw [Nat.add_sub_cancel' h6]
    by_cases h58 : i - 6 < 58
    · simp [h6, h58]
    · have hzero : size.toNat.testBit i = false :=
        Nat.testBit_lt_two_pow (lt_of_lt_of_le size.toNat_lt (Nat.pow_le_pow_right (by decide) (by omega)))
      simp [hzero]
  · simp [h6]

/-- **The end of `MD5_Update`**: the blocks are folded, and what is left over goes to the front of the buffer. -/
theorem updateBlocks_eq (ctx : Md5Ctx) (hle : size.toNat ≤ data.length) :
    ∃ buffer, ctx.updateBlocks data size =
        some { ctx with words := absorb 64 compress ctx.words (data.take size.toNat), buffer := buffer } ∧
      buffer.toList.take (size.toNat % 64) = leftover 64 (data.take size.toNat) := by
  have htaken : (data.take size.toNat).length = size.toNat := List.length_take_of_le hle
  unfold Md5Ctx.updateBlocks
  by_cases h64 : 64 ≤ size
  · rw [if_pos h64]
    have hsize := UInt64.le_iff_toNat_le.mp h64
    have hblocks := toNat_blocks size
    have hsome : (size &&& ~~~ 0x3f).toNat = 64 * (size.toNat / 64 - 1 + 1) := by
      simp only [UInt64.reduceToNat] at hsize
      omega
    have hkept : (size &&& 0x3f).toNat = size.toNat % 64 := by
      rw [UInt64.toNat_and]
      exact and_63 _
    rw [body_eq hsome (by omega), hblocks]
    have hrest : size.toNat % 64 ≤ (data.drop (64 * (size.toNat / 64))).length := by
      rw [List.length_drop]
      omega
    obtain ⟨buffer, hcopy, hbuffer⟩ := memcpy_eq ctx.buffer _ _ _ (show 0 + size.toNat % 64 ≤ 64 by omega) hrest
    -- The blocks, and what stands behind them.
    have hsplit : data.take size.toNat =
        data.take (64 * (size.toNat / 64)) ++ (data.drop (64 * (size.toNat / 64))).take (size.toNat % 64) := by
      rw [← List.take_add]
      congr 1
      omega
    have hdvd : 64 ∣ (data.take (64 * (size.toNat / 64))).length := by
      rw [List.length_take_of_le (by omega)]
      exact Nat.dvd_mul_right _ _
    have hshort : ((data.drop (64 * (size.toNat / 64))).take (size.toNat % 64)).length < 64 := by
      rw [List.length_take_of_le hrest]
      omega
    refine ⟨buffer, ?_, ?_⟩
    · rw [hsplit, absorb_append_left (by decide) _ hdvd, absorb_of_lt _ hshort]
      simp only [Option.map_some, Option.bind_eq_bind, Option.bind_some, hkept, hcopy]
      rfl
    · rw [hsplit, leftover_append_left (by decide) hdvd, leftover_of_lt hshort, hbuffer, List.take_zero,
        List.nil_append]
      exact List.take_left' (List.length_take_of_le hrest)
  · rw [if_neg h64]
    have hsize := mt UInt64.le_iff_toNat_le.mpr h64
    simp only [UInt64.reduceToNat] at hsize
    obtain ⟨buffer, hcopy, hbuffer⟩ := memcpy_eq ctx.buffer _ _ _ (show 0 + size.toNat ≤ 64 by omega) hle
    have hshort : (data.take size.toNat).length < 64 := by omega
    refine ⟨buffer, ?_, ?_⟩
    · rw [absorb_of_lt _ hshort]
      simp only [Option.bind_eq_bind, Option.bind_some, hcopy]
      rfl
    · rw [leftover_of_lt hshort, hbuffer, List.take_zero, List.nil_append, Nat.mod_eq_of_lt (by omega)]
      exact List.take_left' htaken

/-- A piece goes behind what the context holds: the blocks of both are folded, and what they leave over stands at the
    front of the buffer. -/
theorem Holds.append (h : Holds message ctx) {piece : Bytes} (hpiece : piece.length = size.toNat) {words : Words}
    {buffer : Vector UInt8 64} (hwords : words = absorb 64 compress ctx.words (leftover 64 message ++ piece))
    (hbuffer : buffer.toList.take ((leftover 64 message ++ piece).length % 64) =
      leftover 64 (leftover 64 message ++ piece)) :
    Holds (message ++ piece) ⟨(ctx.count size).lo, (ctx.count size).hi, words, buffer⟩ := by
  obtain ⟨hlo, hhi⟩ := h.count size
  have hlength : (message ++ piece).length = message.length + size.toNat := by rw [List.length_append, hpiece]
  refine ⟨?_, ?_, ?_, ?_⟩
  · rw [absorb_append (by decide) initWords message piece, ← h.words]
    exact hwords
  · rw [leftover_append (by decide) message piece, ← hbuffer, List.length_append, List.length_append, length_leftover,
      Nat.mod_add_mod]
  · rw [hlength, ← hlo]
  · rw [hlength, ← hhi]

/-- A piece that does not fill the buffer up is copied behind what is there. -/
theorem Holds.update_fits (h : Holds message ctx) (hle : size.toNat ≤ data.length)
    (hfits : size.toNat < 64 - message.length % 64) :
    ∃ buffer, memcpy ctx.buffer (message.length % 64) data size.toNat = some buffer ∧
      Holds (message ++ data.take size.toNat) ⟨(ctx.count size).lo, (ctx.count size).hi, ctx.words, buffer⟩ := by
  have htaken : (data.take size.toNat).length = size.toNat := List.length_take_of_le hle
  obtain ⟨buffer, hcopy, hbuffer⟩ := memcpy_eq ctx.buffer _ _ _ (show message.length % 64 + size.toNat ≤ 64 by omega) hle
  have hshort : (leftover 64 message ++ data.take size.toNat).length < 64 := by
    rw [List.length_append, length_leftover, htaken]
    omega
  refine ⟨buffer, hcopy, h.append htaken (absorb_of_lt _ hshort).symm ?_⟩
  rw [leftover_of_lt hshort, Nat.mod_eq_of_lt hshort, hbuffer, h.buffer]
  exact List.take_left' rfl

/-- A piece that fills it up: the block is folded, and the rest of the piece goes on from there. -/
theorem Holds.update_fills (h : Holds message ctx) (hle : size.toNat ≤ data.length)
    (hfills : 64 - message.length % 64 ≤ size.toNat) (lo hi : UInt32) :
    ∃ block, memcpy ctx.buffer (message.length % 64) data (64 - message.length % 64) = some block ∧
      ∃ words buffer, (⟨lo, hi, compress ctx.words block.toList, block⟩ : Md5Ctx).updateBlocks
          (data.drop (64 - message.length % 64)) (size - UInt64.ofNat (64 - message.length % 64)) =
            some ⟨lo, hi, words, buffer⟩ ∧
        Holds (message ++ data.take size.toNat) ⟨(ctx.count size).lo, (ctx.count size).hi, words, buffer⟩ := by
  have htaken : (data.take size.toNat).length = size.toNat := List.length_take_of_le hle
  have hfill : 64 - message.length % 64 ≤ data.length := by omega
  obtain ⟨block, hcopy, hblock⟩ :=
    memcpy_eq ctx.buffer _ _ _ (show message.length % 64 + (64 - message.length % 64) ≤ 64 by omega) hfill
  have hnothing : ctx.buffer.toList.drop (message.length % 64 + (64 - message.length % 64)) = [] :=
    List.drop_eq_nil_of_le (by rw [Vector.length_toList]; omega)
  rw [h.buffer, hnothing, List.append_nil] at hblock
  have hfull : (leftover 64 message ++ data.take (64 - message.length % 64)).length = 64 := by
    rw [← hblock, Vector.length_toList]
  have hoffset : (UInt64.ofNat (64 - message.length % 64)).toNat = 64 - message.length % 64 := by
    rw [UInt64.toNat_ofNat']
    exact Nat.mod_eq_of_lt (by omega)
  have hsub : (size - UInt64.ofNat (64 - message.length % 64)).toNat =
      size.toNat - (64 - message.length % 64) := by
    rw [UInt64.toNat_sub_of_le _ _ (UInt64.le_iff_toNat_le.mpr (by rw [hoffset]; exact hfills)), hoffset]
  have hleft : (size - UInt64.ofNat (64 - message.length % 64)).toNat ≤
      (data.drop (64 - message.length % 64)).length := by
    rw [hsub, List.length_drop]
    omega
  have hsplit : leftover 64 message ++ data.take size.toNat =
      (leftover 64 message ++ data.take (64 - message.length % 64)) ++
        (data.drop (64 - message.length % 64)).take (size - UInt64.ofNat (64 - message.length % 64)).toNat := by
    rw [hsub, List.append_assoc, ← List.take_add]
    congr 2
    omega
  obtain ⟨buffer, hupdate, hbuffer⟩ :=
    updateBlocks_eq (⟨lo, hi, compress ctx.words block.toList, block⟩ : Md5Ctx) hleft
  refine ⟨block, hcopy, _, buffer, hupdate, h.append htaken ?_ ?_⟩
  · rw [hsplit, absorb_block (by decide) _ hfull, ← hblock]
  · rw [hsplit, leftover_append_left (by decide) (Dvd.intro 1 hfull.symm), ← hbuffer, List.length_append, hfull,
      List.length_take_of_le hleft, Nat.add_mod_left]

/-- **A piece**: the context holds the message with the piece behind it, and no array is left. -/
theorem Holds.update (h : Holds message ctx) (hle : size.toNat ≤ data.length) :
    ∃ ctx', md5Update ctx data size = some ctx' ∧ Holds (message ++ data.take size.toNat) ctx' := by
  unfold md5Update
  simp only [h.used]
  by_cases hused : message.length % 64 = 0
  · rw [if_neg (not_not_intro hused)]
    have htaken : (data.take size.toNat).length = size.toNat := List.length_take_of_le hle
    have hnone : leftover 64 message = [] := leftover_of_dvd (Nat.dvd_of_mod_eq_zero hused)
    obtain ⟨buffer, hupdate, hbuffer⟩ := updateBlocks_eq (ctx.count size) hle
    refine ⟨_, hupdate, h.append htaken ?_ ?_⟩
    · rw [hnone, List.nil_append]
      rfl
    · rw [hnone, List.nil_append, ← hbuffer, htaken]
  · rw [if_pos hused]
    by_cases hfits : size.toNat < 64 - message.length % 64
    · rw [if_pos hfits]
      obtain ⟨buffer, hcopy, hholds⟩ := h.update_fits hle hfits
      refine ⟨_, ?_, hholds⟩
      change Option.map _ (memcpy ctx.buffer _ _ _) = _
      rw [hcopy]
      rfl
    · rw [if_neg hfits]
      obtain ⟨block, hcopy, words, buffer, hupdate, hholds⟩ :=
        h.update_fills hle (Nat.le_of_not_lt hfits) (ctx.count size).lo (ctx.count size).hi
      have hbody := bodyBuffer_eq ({ ctx.count size with buffer := block } : Md5Ctx)
      refine ⟨_, ?_, hholds⟩
      change (memcpy ctx.buffer _ _ _).bind _ = _
      rw [hcopy]
      simp only [hbody, Option.bind_eq_bind, Option.bind_some]
      exact hupdate

/-! ## The end -/

theorem bytesOf_eq (x : UInt32) : bytesOf x = littleEndian x := (littleEndian_eq x).symm

theorem result_eq (w : Words) : w.result = digestOf w := by
  rw [Words.result, digestOf, bytesOf_eq, bytesOf_eq, bytesOf_eq, bytesOf_eq]

/-- The counters, shifted and stored, are the length in bits. -/
theorem Holds.bits (h : Holds message ctx) :
    bytesOf (ctx.lo <<< 3) ++ bytesOf ctx.hi =
      (List.range 8).map (fun k => UInt8.ofNat (8 * message.length / 256 ^ k)) := by
  have hlo : (ctx.lo <<< 3).toNat = 8 * message.length % 2 ^ 32 := by
    rw [UInt32.toNat_shiftLeft, h.lo, Nat.shiftLeft_eq]
    change message.length % 2 ^ 29 * 8 % 2 ^ 32 = _
    omega
  have hall : ∀ k < 4, UInt8.ofNat ((ctx.lo <<< 3).toNat / 256 ^ k) = UInt8.ofNat (8 * message.length / 256 ^ k) ∧
      UInt8.ofNat (ctx.hi.toNat / 256 ^ k) = UInt8.ofNat (8 * message.length / 256 ^ (k + 4)) := by
    intro k hk
    rw [hlo, h.hi, ← UInt8.toNat_inj, ← UInt8.toNat_inj]
    simp only [UInt8.toNat_ofNat']
    interval_cases k <;> omega
  rw [bytesOf_eq, bytesOf_eq, littleEndian, littleEndian]
  obtain ⟨hl₀, hh₀⟩ := hall 0 (by decide)
  obtain ⟨hl₁, hh₁⟩ := hall 1 (by decide)
  obtain ⟨hl₂, hh₂⟩ := hall 2 (by decide)
  obtain ⟨hl₃, hh₃⟩ := hall 3 (by decide)
  simp only [List.range_succ, List.range_zero, List.nil_append, List.cons_append, List.map_cons, List.map_nil,
    hl₀, hl₁, hl₂, hl₃, hh₀, hh₁, hh₂, hh₃]

/-- Zeros and the length behind what stands at the front of the buffer. -/
theorem fill_eq (buffer : Vector UInt8 64) {used : Nat} (hused : used ≤ 56) {bits : Bytes} (hbits : bits.length = 8) :
    ∃ zeros block, memset buffer used 0 (64 - used - 8) = some zeros ∧ memcpy zeros 56 bits 8 = some block ∧
      block.toList = buffer.toList.take used ++ List.replicate (56 - used) 0 ++ bits := by
  obtain ⟨zeros, hset, hzeros⟩ := memcpy_eq buffer used (64 - used - 8)
    (List.replicate (64 - used - 8) 0) (by omega) (by rw [List.length_replicate])
  obtain ⟨block, hcopy, hblock⟩ := memcpy_eq zeros 56 8 bits (by omega) (by omega)
  refine ⟨zeros, block, hset, hcopy, ?_⟩
  have hnum : 64 - used - 8 = 56 - used := by omega
  have hbehind : zeros.toList.drop (56 + 8) = [] := List.drop_eq_nil_of_le (by rw [Vector.length_toList])
  have hfront : (buffer.toList.take used ++ List.replicate (56 - used) 0).length = 56 := by
    rw [List.length_append, List.length_take, Vector.length_toList, List.length_replicate]
    omega
  rw [hblock, hbehind, List.append_nil, hzeros, hnum, List.take_of_length_le (List.length_replicate ..).le,
    List.take_left' hfront, List.take_of_length_le hbits.le]

/-- **`MD5_Final` computes the digest**, and clears the context. -/
theorem Holds.final (h : Holds message ctx) : md5Final ctx = some (md5 message, Md5Ctx.cleared) := by
  have hlt : message.length % 64 < 64 := Nat.mod_lt _ (by decide)
  have hbits : (bytesOf (ctx.lo <<< 3) ++ bytesOf ctx.hi).length = 8 := rfl
  obtain ⟨marked, hmark, hmarked⟩ :=
    memcpy_eq ctx.buffer (message.length % 64) 1 [0x80] (by omega) (by decide)
  have hfront : marked.toList.take (message.length % 64 + 1) = leftover 64 message ++ [0x80] := by
    rw [hmarked, h.buffer]
    exact List.take_left' (by rw [List.length_append, length_leftover]; rfl)
  have hdigest : md5 message =
      digestOf (absorb 64 compress ctx.words (leftover 64 message ++ padding message.length)) := by
    rw [md5, absorb_append (by decide), ← h.words]
  unfold md5Final
  simp only [h.used, hmark, Option.bind_eq_bind, Option.bind_some]
  by_cases hroom : 64 - (message.length % 64 + 1) < 8
  · -- There is no room for the length: a block of its own holds it.
    obtain ⟨full, hset, hfull⟩ := memcpy_eq marked (message.length % 64 + 1)
      (64 - (message.length % 64 + 1)) (List.replicate (64 - (message.length % 64 + 1)) 0) (by omega)
      (by rw [List.length_replicate])
    have hnothing : marked.toList.drop (message.length % 64 + 1 + (64 - (message.length % 64 + 1))) = [] :=
      List.drop_eq_nil_of_le (by rw [Vector.length_toList]; omega)
    rw [hfront, hnothing, List.append_nil, List.take_of_length_le (List.length_replicate ..).le] at hfull
    have hfullLength : full.toList.length = 64 := Vector.length_toList
    obtain ⟨zeros, block, hzeros, hcopy, hblock⟩ := fill_eq full (Nat.zero_le 56) hbits
    have hset' : memset marked (message.length % 64 + 1) 0 (64 - (message.length % 64 + 1)) = some full := hset
    have hzeros' : memset full 0 0 (64 - 8) = some zeros := hzeros
    have hpadded : leftover 64 message ++ padding message.length = full.toList ++ block.toList := by
      have hsplit : (119 - message.length % 64) % 64 = 64 - (message.length % 64 + 1) + 56 := by omega
      rw [hblock, hfull, padding, h.bits, hsplit, List.replicate_add]
      simp
    rw [hdigest, hpadded, absorb_block (by decide) _ hfullLength, absorb_one (by decide) _ Vector.length_toList]
    generalize hfirst : compress ctx.words full.toList = first
    generalize hlast : compress first block.toList = last
    have hbody₁ := bodyBuffer_eq ({ ctx with buffer := full } : Md5Ctx)
    have hbody₂ := bodyBuffer_eq ({ ctx with words := first, buffer := block } : Md5Ctx)
    rw [hfirst] at hbody₁
    rw [hlast] at hbody₂
    rw [if_pos hroom, hset']
    simp only [Option.bind_some, hbody₁, Option.pure_def, hzeros', hcopy, hbody₂, result_eq]
  · obtain ⟨zeros, block, hzeros, hcopy, hblock⟩ :=
      fill_eq marked (show message.length % 64 + 1 ≤ 56 by omega) hbits
    have hpadded : leftover 64 message ++ padding message.length = block.toList := by
      have hsplit : (119 - message.length % 64) % 64 = 56 - (message.length % 64 + 1) := by omega
      rw [hblock, hfront, padding, h.bits, hsplit]
      simp
    rw [hdigest, hpadded, absorb_one (by decide) _ Vector.length_toList]
    generalize hlast : compress ctx.words block.toList = last
    have hbody := bodyBuffer_eq ({ ctx with buffer := block } : Md5Ctx)
    rw [hlast] at hbody
    rw [if_neg hroom]
    simp only [Option.bind_some, Option.pure_def, hzeros, hcopy, hbody, result_eq]

/-- **The digest of a message that arrives in pieces** is that of the message: whatever the context held before,
    however long the pieces are, and never outside an array. -/
theorem md5Final_foldlM (ctx : Md5Ctx) (pieces : List Bytes) (h : ∀ piece ∈ pieces, piece.length < 2 ^ 64) :
    (pieces.foldlM (fun ctx piece => md5Update ctx piece (UInt64.ofNat piece.length)) (md5Init ctx)).bind md5Final =
      some (md5 pieces.flatten, Md5Ctx.cleared) := by
  have hrun : ∀ (pieces : List Bytes) (message : Bytes) (ctx : Md5Ctx), Holds message ctx →
      (∀ piece ∈ pieces, piece.length < 2 ^ 64) →
      ∃ ctx', pieces.foldlM (fun ctx piece => md5Update ctx piece (UInt64.ofNat piece.length)) ctx = some ctx' ∧
        Holds (message ++ pieces.flatten) ctx' := by
    intro pieces
    induction pieces with
    | nil =>
        intro message ctx hholds _
        refine ⟨ctx, rfl, ?_⟩
        rw [List.flatten_nil, List.append_nil]
        exact hholds
    | cons piece pieces ih =>
        intro message ctx hholds hlt
        have hsize : (UInt64.ofNat piece.length).toNat = piece.length := by
          rw [UInt64.toNat_ofNat']
          exact Nat.mod_eq_of_lt (hlt piece List.mem_cons_self)
        obtain ⟨ctx₁, hupdate, hholds₁⟩ := hholds.update (Nat.le_of_eq hsize)
        rw [hsize, List.take_length] at hholds₁
        obtain ⟨ctx₂, hfold, hholds₂⟩ := ih _ ctx₁ hholds₁ fun p hp => hlt p (List.mem_cons_of_mem _ hp)
        refine ⟨ctx₂, ?_, ?_⟩
        · rw [List.foldlM_cons, hupdate]
          exact hfold
        · rw [List.flatten_cons, ← List.append_assoc]
          exact hholds₂
  obtain ⟨ctx', hfold, hholds⟩ := hrun pieces [] (md5Init ctx) (holds_md5Init ctx) h
  rw [hfold]
  exact hholds.final

/-- The pieces `a` and `bc`, and the digest of `abc`. -/
theorem md5Final_foldlM_abc :
    ([ascii "a", ascii "bc"].foldlM (fun ctx piece => md5Update ctx piece (UInt64.ofNat piece.length))
      (md5Init Md5Ctx.cleared)).bind md5Final =
        some ([0x90, 0x01, 0x50, 0x98, 0x3c, 0xd2, 0x4f, 0xb0, 0xd6, 0x96, 0x3f, 0x7d, 0x28, 0xe1, 0x7f, 0x72],
          Md5Ctx.cleared) := by
  have hdigest : md5 [ascii "a", ascii "bc"].flatten =
      [0x90, 0x01, 0x50, 0x98, 0x3c, 0xd2, 0x4f, 0xb0, 0xd6, 0x96, 0x3f, 0x7d, 0x28, 0xe1, 0x7f, 0x72] := by
    decide +kernel
  rw [← hdigest]
  exact md5Final_foldlM Md5Ctx.cleared [ascii "a", ascii "bc"] (by decide)

end Md5
end Hiaux
