import Hiaux.Lib.Bytes

/-!
# `Lib.ByteOrder` — words and their bytes

A word of 32 bits is put together from four bytes, taken apart into them in either order, and rotated. A program does
so with shifts; the lemmas say which number or which bytes its shifts give.
-/

namespace Lib

/-- A word rotated to the left. -/
def rotl (n : Nat) (x : UInt32) : UInt32 := ⟨x.toBitVec.rotateLeft n⟩

/-- The word of four bytes, the lowest one first. -/
def wordOf (b₀ b₁ b₂ b₃ : UInt8) : UInt32 :=
  UInt32.ofNat (b₀.toNat + 2 ^ 8 * b₁.toNat + 2 ^ 16 * b₂.toNat + 2 ^ 24 * b₃.toNat)

/-- The four bytes of a word, the lowest one first. -/
def littleEndian (x : UInt32) : Bytes := (List.range 4).map (fun k => UInt8.ofNat (x.toNat / 256 ^ k))

/-- The four bytes of a word, the highest one first. -/
def bigEndian (x : UInt32) : Bytes := (littleEndian x).reverse

/-! ## Shifts -/

/-- A shift to each side is a rotation. -/
theorem or_shifts_eq_rotl (x : UInt32) {s : UInt32} (h : s.toNat < 32) :
    (x <<< s) ||| (x >>> (32 - s)) = rotl s.toNat x := by
  have hs : s ≤ 32 := UInt32.le_iff_toNat_le.mpr (Nat.le_of_lt h)
  have hsub : (32 - s).toNat = 32 - s.toNat := UInt32.toNat_sub_of_le _ _ hs
  have hrotate : rotl s.toNat x = UInt32.ofBitVec (x.toBitVec <<< s.toNat ||| x.toBitVec >>> (32 - s.toNat)) := by
    rw [rotl, BitVec.rotateLeft_def, Nat.mod_eq_of_lt h]
  rw [hrotate, ← UInt32.toNat_inj, UInt32.toNat_or, UInt32.toNat_shiftLeft, UInt32.toNat_shiftRight, hsub,
    Nat.mod_eq_of_lt h]
  show _ = (x.toBitVec <<< s.toNat ||| x.toBitVec >>> (32 - s.toNat)).toNat
  rw [BitVec.toNat_or, BitVec.toNat_shiftLeft, BitVec.toNat_ushiftRight]
  by_cases h0 : s.toNat = 0
  · -- The shift by 32 is a shift by nothing on the word, and gives zero on the number.
    have hx : x.toNat >>> 32 = 0 := by
      rw [Nat.shiftRight_eq_div_pow]
      exact Nat.div_eq_of_lt x.toNat_lt
    rw [h0]
    simp [hx]
  · have hlt : 32 - s.toNat < 32 := by omega
    rw [Nat.mod_eq_of_lt hlt]
    rfl

theorem or_shifts_eq_wordOf (b₀ b₁ b₂ b₃ : UInt8) :
    b₀.toUInt32 ||| (b₁.toUInt32 <<< 8) ||| (b₂.toUInt32 <<< 16) ||| (b₃.toUInt32 <<< 24) = wordOf b₀ b₁ b₂ b₃ := by
  have hor : ∀ a b k : Nat, b < 2 ^ k → b ||| a * 2 ^ k = b + 2 ^ k * a := by
    intro a b k hb
    rw [Nat.or_comm, ← Nat.shiftLeft_eq, ← Nat.shiftLeft_add_eq_or_of_lt hb, Nat.add_comm, Nat.shiftLeft_eq,
      Nat.mul_comm]
  have h₀ := b₀.toNat_lt
  have h₁ := b₁.toNat_lt
  have h₂ := b₂.toNat_lt
  have h₃ := b₃.toNat_lt
  rw [← UInt32.toNat_inj]
  simp only [UInt32.toNat_or, UInt32.toNat_shiftLeft, UInt8.toNat_toUInt32, UInt32.reduceToNat, Nat.shiftLeft_eq,
    Nat.reduceMod]
  rw [Nat.mod_eq_of_lt (show b₁.toNat * 2 ^ 8 < 2 ^ 32 by omega),
    Nat.mod_eq_of_lt (show b₂.toNat * 2 ^ 16 < 2 ^ 32 by omega),
    Nat.mod_eq_of_lt (show b₃.toNat * 2 ^ 24 < 2 ^ 32 by omega),
    hor _ _ 8 (by omega), hor _ _ 16 (by omega), hor _ _ 24 (by omega), wordOf, UInt32.toNat_ofNat']
  exact (Nat.mod_eq_of_lt (by omega)).symm

/-- A byte of a word. -/
theorem toUInt8_shiftRight (x : UInt32) {s : UInt32} (h : s.toNat < 32) :
    (x >>> s).toUInt8 = UInt8.ofNat (x.toNat / 2 ^ s.toNat) := by
  rw [← UInt8.toNat_inj, UInt32.toNat_toUInt8, UInt32.toNat_shiftRight, Nat.mod_eq_of_lt h, UInt8.toNat_ofNat',
    Nat.shiftRight_eq_div_pow]

theorem toUInt8_eq (x : UInt32) : x.toUInt8 = UInt8.ofNat x.toNat := by
  rw [← UInt8.toNat_inj, UInt32.toNat_toUInt8, UInt8.toNat_ofNat']

theorem littleEndian_eq (x : UInt32) :
    littleEndian x = [x.toUInt8, (x >>> 8).toUInt8, (x >>> 16).toUInt8, (x >>> 24).toUInt8] := by
  have hfirst : x.toUInt8 = UInt8.ofNat (x.toNat / 1) := by rw [toUInt8_eq, Nat.div_one]
  rw [toUInt8_shiftRight x (s := 8) (by decide), toUInt8_shiftRight x (s := 16) (by decide),
    toUInt8_shiftRight x (s := 24) (by decide), hfirst]
  rfl

theorem bigEndian_eq (x : UInt32) :
    bigEndian x = [(x >>> 24).toUInt8, (x >>> 16).toUInt8, (x >>> 8).toUInt8, x.toUInt8] := by
  rw [bigEndian, littleEndian_eq]
  rfl

/-- A word is put together again from its bytes. -/
theorem wordOf_bytes (x : UInt32) :
    wordOf x.toUInt8 (x >>> 8).toUInt8 (x >>> 16).toUInt8 (x >>> 24).toUInt8 = x := by
  have hx := x.toNat_lt
  rw [toUInt8_shiftRight x (s := 8) (by decide), toUInt8_shiftRight x (s := 16) (by decide),
    toUInt8_shiftRight x (s := 24) (by decide), toUInt8_eq, wordOf, ← UInt32.toNat_inj, UInt32.toNat_ofNat']
  simp only [UInt8.toNat_ofNat', UInt32.reduceToNat]
  omega

end Lib
