import Hiaux.Strings.Utf8

/-!
# `Strings.Correctness.Utf8Codec` — the UTF-8 library decodes and encodes UTF-8

Lean's `Char` is a valid code point, and `String.utf8EncodeChar` is its encoding. `utf8::append` writes the
encoding of every valid code point (`append_val`), and `utf8::next` reads a code point exactly where the encoding
of one stands (`next_encode`, `next_sound`). Bytes and code points are compared as numbers: a mask is a remainder,
a shift a product or a quotient.
-/

namespace Hiaux
namespace Strings

open Lib

namespace Utf8

/-! ## Bytes and code points as numbers -/

theorem isTrail_iff (b : UInt8) : isTrail b = true ↔ 128 ≤ b.toNat ∧ b.toNat < 192 := by
  have hall : ∀ n : Fin 256, isTrail (UInt8.ofFin n) = true ↔ 128 ≤ n.val ∧ n.val < 192 := by decide +kernel
  exact hall b.toFin

/-- The lead bytes of sequences of each length. -/
theorem sequenceLength_iff (b : UInt8) :
    (sequenceLength b = 1 ↔ b.toNat < 128) ∧ (sequenceLength b = 2 ↔ 192 ≤ b.toNat ∧ b.toNat < 224) ∧
      (sequenceLength b = 3 ↔ 224 ≤ b.toNat ∧ b.toNat < 240) ∧
      (sequenceLength b = 4 ↔ 240 ≤ b.toNat ∧ b.toNat < 248) := by
  have hall : ∀ n : Fin 256, (sequenceLength (UInt8.ofFin n) = 1 ↔ n.val < 128) ∧
      (sequenceLength (UInt8.ofFin n) = 2 ↔ 192 ≤ n.val ∧ n.val < 224) ∧
      (sequenceLength (UInt8.ofFin n) = 3 ↔ 224 ≤ n.val ∧ n.val < 240) ∧
      (sequenceLength (UInt8.ofFin n) = 4 ↔ 240 ≤ n.val ∧ n.val < 248) := by decide +kernel
  exact hall b.toFin

theorem isCodePointValid_iff (cp : UInt32) :
    isCodePointValid cp = true ↔ cp.toNat < 0xd800 ∨ 0xdfff < cp.toNat ∧ cp.toNat < 0x110000 := by
  simp only [isCodePointValid, isSurrogate, Bool.and_eq_true, Bool.not_eq_true', Bool.and_eq_false_iff,
    decide_eq_true_eq, decide_eq_false_iff_not, UInt32.le_iff_toNat_le, UInt32.reduceToNat]
  omega

theorem isOverlongSequence_iff (cp : UInt32) (length : Nat) :
    isOverlongSequence cp length = false ↔ (cp.toNat < 0x80 → length = 1) ∧
      (0x80 ≤ cp.toNat → cp.toNat < 0x800 → length = 2) ∧
      (0x800 ≤ cp.toNat → cp.toNat < 0x10000 → length = 3) := by
  unfold isOverlongSequence
  simp only [UInt32.lt_iff_toNat_lt, UInt32.reduceToNat]
  split
  · simp only [bne_eq_false_iff_eq]
    omega
  · split
    · simp only [bne_eq_false_iff_eq]
      omega
    · split
      · simp only [bne_eq_false_iff_eq]
        omega
      · simp only [true_iff]
        omega

theorem toNat_codePoint2 (lead b : UInt8) :
    (codePoint2 lead b).toNat = lead.toNat * 64 % 2048 + b.toNat % 64 := by
  have hlead := lead.toNat_lt
  have hb := b.toNat_lt
  have h11 : ∀ x : Nat, x &&& 2047 = x % 2048 := fun x => Nat.and_two_pow_sub_one_eq_mod x 11
  have h6 : ∀ x : Nat, x &&& 63 = x % 64 := fun x => Nat.and_two_pow_sub_one_eq_mod x 6
  simp [codePoint2, UInt32.toNat_add, UInt32.toNat_shiftLeft, h11, h6, Nat.shiftLeft_eq]
  omega

theorem toNat_codePoint3 (lead b c : UInt8) :
    (codePoint3 lead b c).toNat = lead.toNat * 4096 % 65536 + b.toNat * 64 % 4096 + c.toNat % 64 := by
  have hlead := lead.toNat_lt
  have hb := b.toNat_lt
  have hc := c.toNat_lt
  have h16 : ∀ x : Nat, x &&& 65535 = x % 65536 := fun x => Nat.and_two_pow_sub_one_eq_mod x 16
  have h12 : ∀ x : Nat, x &&& 4095 = x % 4096 := fun x => Nat.and_two_pow_sub_one_eq_mod x 12
  have h6 : ∀ x : Nat, x &&& 63 = x % 64 := fun x => Nat.and_two_pow_sub_one_eq_mod x 6
  simp [codePoint3, UInt32.toNat_add, UInt32.toNat_shiftLeft, h16, h12, h6, Nat.shiftLeft_eq]
  omega

theorem toNat_codePoint4 (lead b c d : UInt8) :
    (codePoint4 lead b c d).toNat =
      lead.toNat * 262144 % 2097152 + b.toNat * 4096 % 262144 + c.toNat * 64 % 4096 + d.toNat % 64 := by
  have hlead := lead.toNat_lt
  have hb := b.toNat_lt
  have hc := c.toNat_lt
  have hd := d.toNat_lt
  have h21 : ∀ x : Nat, x &&& 2097151 = x % 2097152 := fun x => Nat.and_two_pow_sub_one_eq_mod x 21
  have h18 : ∀ x : Nat, x &&& 262143 = x % 262144 := fun x => Nat.and_two_pow_sub_one_eq_mod x 18
  have h12 : ∀ x : Nat, x &&& 4095 = x % 4096 := fun x => Nat.and_two_pow_sub_one_eq_mod x 12
  have h6 : ∀ x : Nat, x &&& 63 = x % 64 := fun x => Nat.and_two_pow_sub_one_eq_mod x 6
  simp [codePoint4, UInt32.toNat_add, UInt32.toNat_shiftLeft, h21, h18, h12, h6, Nat.shiftLeft_eq]
  omega

/-! ## `append` -/

/-- The bytes behind the lead byte. -/
theorem trailByte (x : UInt32) : ((x &&& 0x3f) ||| 0x80).toUInt8 = UInt8.ofNat (x.toNat % 64 + 128) := by
  have h6 : ∀ x : Nat, x &&& 63 = x % 64 := fun x => Nat.and_two_pow_sub_one_eq_mod x 6
  have hall : ∀ n : Fin 64, n.val ||| 128 = n.val + 128 := by decide +kernel
  have hor := hall ⟨x.toNat % 64, Nat.mod_lt _ (by decide)⟩
  rw [← UInt8.toNat_inj]
  simp only [UInt32.toNat_toUInt8, UInt32.toNat_or, UInt32.toNat_and, UInt32.reduceToNat, h6,
    UInt8.toNat_ofNat', hor]

theorem leadByte2 {x : UInt32} (h : x.toNat < 32) : (x ||| 0xc0).toUInt8 = UInt8.ofNat (x.toNat % 32 + 192) := by
  have hall : ∀ n : Fin 32, n.val ||| 192 = n.val % 32 + 192 := by decide +kernel
  rw [← UInt8.toNat_inj]
  simp only [UInt32.toNat_toUInt8, UInt32.toNat_or, UInt32.reduceToNat, UInt8.toNat_ofNat', hall ⟨x.toNat, h⟩]

theorem leadByte3 {x : UInt32} (h : x.toNat < 16) : (x ||| 0xe0).toUInt8 = UInt8.ofNat (x.toNat % 16 + 224) := by
  have hall : ∀ n : Fin 16, n.val ||| 224 = n.val % 16 + 224 := by decide +kernel
  rw [← UInt8.toNat_inj]
  simp only [UInt32.toNat_toUInt8, UInt32.toNat_or, UInt32.reduceToNat, UInt8.toNat_ofNat', hall ⟨x.toNat, h⟩]

theorem leadByte4 {x : UInt32} (h : x.toNat < 8) : (x ||| 0xf0).toUInt8 = UInt8.ofNat (x.toNat % 8 + 240) := by
  have hall : ∀ n : Fin 8, n.val ||| 240 = n.val % 8 + 240 := by decide +kernel
  rw [← UInt8.toNat_inj]
  simp only [UInt32.toNat_toUInt8, UInt32.toNat_or, UInt32.reduceToNat, UInt8.toNat_ofNat', hall ⟨x.toNat, h⟩]

theorem toNat_shiftRight_6 (cp : UInt32) : (cp >>> 6).toNat = cp.toNat / 64 := by
  simp [Nat.shiftRight_eq_div_pow]

theorem toNat_shiftRight_12 (cp : UInt32) : (cp >>> 12).toNat = cp.toNat / 4096 := by
  simp [Nat.shiftRight_eq_div_pow]

theorem toNat_shiftRight_18 (cp : UInt32) : (cp >>> 18).toNat = cp.toNat / 262144 := by
  simp [Nat.shiftRight_eq_div_pow]

theorem val_valid (c : Char) : isCodePointValid c.val = true := by
  rw [isCodePointValid_iff]
  exact c.valid

/-- **`append` encodes** every valid code point. -/
theorem append_val (c : Char) : append c.val = .ok (String.utf8EncodeChar c) := by
  have hvalid := (isCodePointValid_iff c.val).mp (val_valid c)
  unfold append String.utf8EncodeChar
  simp only [val_valid, Bool.not_true, Bool.false_eq_true, if_false, UInt32.lt_iff_toNat_lt, UInt32.reduceToNat]
  by_cases h1 : c.val.toNat < 0x80
  · have hbyte : c.val.toUInt8 = UInt8.ofNat c.val.toNat := by
      rw [← UInt8.toNat_inj, UInt32.toNat_toUInt8, UInt8.toNat_ofNat']
    rw [if_pos h1, if_pos (show c.val.toNat ≤ 0x7f by omega), hbyte]
  · rw [if_neg h1, if_neg (show ¬ c.val.toNat ≤ 0x7f by omega)]
    by_cases h2 : c.val.toNat < 0x800
    · rw [if_pos h2, if_pos (show c.val.toNat ≤ 0x7ff by omega),
        leadByte2 (by rw [toNat_shiftRight_6]; omega), trailByte, toNat_shiftRight_6]
    · rw [if_neg h2, if_neg (show ¬ c.val.toNat ≤ 0x7ff by omega)]
      by_cases h3 : c.val.toNat < 0x10000
      · rw [if_pos h3, if_pos (show c.val.toNat ≤ 0xffff by omega),
          leadByte3 (by rw [toNat_shiftRight_12]; omega), trailByte, trailByte, toNat_shiftRight_6,
          toNat_shiftRight_12]
      · rw [if_neg h3, if_neg (show ¬ c.val.toNat ≤ 0xffff by omega),
          leadByte4 (by rw [toNat_shiftRight_18]; omega), trailByte, trailByte, trailByte, toNat_shiftRight_6,
          toNat_shiftRight_12, toNat_shiftRight_18]

/-- Any other code point is refused. -/
theorem append_eq_error {cp : UInt32} (h : isCodePointValid cp = false) :
    append cp = .error .invalidCodePoint := by
  rw [append, h]
  rfl

/-! ## `next` -/

@[simp] theorem toNat_trail (n : Nat) : (UInt8.ofNat (n % 64 + 128)).toNat = n % 64 + 128 := by
  rw [UInt8.toNat_ofNat']
  omega

theorem isTrail_trail (n : Nat) : isTrail (UInt8.ofNat (n % 64 + 128)) = true := by
  rw [isTrail_iff, toNat_trail]
  omega

/-- A sequence that starts with a lead byte for its length. -/
theorem getSequence2_cons {lead b : UInt8} (s : Bytes) (hlead : sequenceLength lead = 2) (hb : isTrail b = true) :
    getSequence lead (b :: s) = .ok (codePoint2 lead b, s) := by
  rw [getSequence, hlead]
  show getSequence2 lead (b :: s) = _
  rw [getSequence2, increaseSafely_cons _ hb]
  rfl

theorem getSequence3_cons {lead b c : UInt8} (s : Bytes) (hlead : sequenceLength lead = 3)
    (hb : isTrail b = true) (hc : isTrail c = true) :
    getSequence lead (b :: c :: s) = .ok (codePoint3 lead b c, s) := by
  rw [getSequence, hlead]
  show getSequence3 lead (b :: c :: s) = _
  rw [getSequence3, increaseSafely_cons _ hb]
  show (increaseSafely (c :: s) >>= _) = _
  rw [increaseSafely_cons _ hc]
  rfl

theorem getSequence4_cons {lead b c d : UInt8} (s : Bytes) (hlead : sequenceLength lead = 4)
    (hb : isTrail b = true) (hc : isTrail c = true) (hd : isTrail d = true) :
    getSequence lead (b :: c :: d :: s) = .ok (codePoint4 lead b c d, s) := by
  rw [getSequence, hlead]
  show getSequence4 lead (b :: c :: d :: s) = _
  rw [getSequence4, increaseSafely_cons _ hb]
  show (increaseSafely (c :: d :: s) >>= _) = _
  rw [increaseSafely_cons _ hc]
  show (increaseSafely (d :: s) >>= _) = _
  rw [increaseSafely_cons _ hd]
  rfl

/-- A sequence whose code point is valid and not too short for it. -/
theorem next_of_getSequence {lead : UInt8} {s r : Bytes} {cp : UInt32} (hsequence : getSequence lead s = .ok (cp, r))
    (hvalid : isCodePointValid cp = true) (hshort : isOverlongSequence cp (sequenceLength lead) = false) :
    next (lead :: s) = .ok (cp, r) := by
  rw [next, hsequence]
  show (if isCodePointValid cp then if !isOverlongSequence cp (sequenceLength lead) then _ else _ else _) = _
  rw [if_pos hvalid, hshort]
  rfl

/-- **`next` reads what is encoded.** -/
theorem next_encode (c : Char) (s : Bytes) : next (String.utf8EncodeChar c ++ s) = .ok (c.val, s) := by
  have hvalid := (isCodePointValid_iff c.val).mp (val_valid c)
  unfold String.utf8EncodeChar
  by_cases h1 : c.val.toNat ≤ 0x7f
  · have hlead := (sequenceLength_iff (UInt8.ofNat c.val.toNat)).1.mpr (by rw [UInt8.toNat_ofNat']; omega)
    have hval : (UInt8.ofNat c.val.toNat).toUInt32 = c.val := by
      rw [← UInt32.toNat_inj, UInt8.toNat_toUInt32, UInt8.toNat_ofNat']
      omega
    have hsequence : getSequence (UInt8.ofNat c.val.toNat) s = .ok (c.val, s) := by
      rw [getSequence, hlead]
      exact congrArg (fun cp => Except.ok (cp, s)) hval
    rw [if_pos h1]
    exact next_of_getSequence hsequence (val_valid c) ((isOverlongSequence_iff _ _).mpr (by omega))
  · rw [if_neg h1]
    by_cases h2 : c.val.toNat ≤ 0x7ff
    · have hbyte : (UInt8.ofNat (c.val.toNat / 64 % 32 + 192)).toNat = c.val.toNat / 64 % 32 + 192 := by
        rw [UInt8.toNat_ofNat']
        omega
      have hlead := (sequenceLength_iff (UInt8.ofNat (c.val.toNat / 64 % 32 + 192))).2.1.mpr (by omega)
      have hsequence := getSequence2_cons s hlead (isTrail_trail c.val.toNat)
      have hval : codePoint2 (UInt8.ofNat (c.val.toNat / 64 % 32 + 192))
          (UInt8.ofNat (c.val.toNat % 64 + 128)) = c.val := by
        rw [← UInt32.toNat_inj, toNat_codePoint2, hbyte, toNat_trail]
        omega
      rw [hval] at hsequence
      rw [if_pos h2]
      exact next_of_getSequence hsequence (val_valid c) ((isOverlongSequence_iff _ _).mpr (by omega))
    · rw [if_neg h2]
      by_cases h3 : c.val.toNat ≤ 0xffff
      · have hbyte : (UInt8.ofNat (c.val.toNat / 4096 % 16 + 224)).toNat = c.val.toNat / 4096 % 16 + 224 := by
          rw [UInt8.toNat_ofNat']
          omega
        have hlead := (sequenceLength_iff (UInt8.ofNat (c.val.toNat / 4096 % 16 + 224))).2.2.1.mpr (by omega)
        have hsequence := getSequence3_cons s hlead (isTrail_trail (c.val.toNat / 64)) (isTrail_trail c.val.toNat)
        have hval : codePoint3 (UInt8.ofNat (c.val.toNat / 4096 % 16 + 224))
            (UInt8.ofNat (c.val.toNat / 64 % 64 + 128)) (UInt8.ofNat (c.val.toNat % 64 + 128)) = c.val := by
          rw [← UInt32.toNat_inj, toNat_codePoint3, hbyte, toNat_trail, toNat_trail]
          omega
        rw [hval] at hsequence
        rw [if_pos h3]
        exact next_of_getSequence hsequence (val_valid c) ((isOverlongSequence_iff _ _).mpr (by omega))
      · have hbyte : (UInt8.ofNat (c.val.toNat / 262144 % 8 + 240)).toNat = c.val.toNat / 262144 % 8 + 240 := by
          rw [UInt8.toNat_ofNat']
          omega
        have hlead := (sequenceLength_iff (UInt8.ofNat (c.val.toNat / 262144 % 8 + 240))).2.2.2.mpr (by omega)
        have hsequence := getSequence4_cons s hlead (isTrail_trail (c.val.toNat / 4096))
          (isTrail_trail (c.val.toNat / 64)) (isTrail_trail c.val.toNat)
        have hval : codePoint4 (UInt8.ofNat (c.val.toNat / 262144 % 8 + 240))
            (UInt8.ofNat (c.val.toNat / 4096 % 64 + 128)) (UInt8.ofNat (c.val.toNat / 64 % 64 + 128))
            (UInt8.ofNat (c.val.toNat % 64 + 128)) = c.val := by
          rw [← UInt32.toNat_inj, toNat_codePoint4, hbyte, toNat_trail, toNat_trail, toNat_trail]
          omega
        rw [hval] at hsequence
        rw [if_neg h3]
        exact next_of_getSequence hsequence (val_valid c) ((isOverlongSequence_iff _ _).mpr (by omega))

/-- **`next` reads nothing else.** -/
theorem next_sound {s r : Bytes} {cp : UInt32} (h : next s = .ok (cp, r)) :
    ∃ c : Char, c.val = cp ∧ s = String.utf8EncodeChar c ++ r := by
  obtain ⟨lead, s', rfl, hsequence, hvalid, hshort⟩ := next_ok h
  refine ⟨⟨cp, (isCodePointValid_iff cp).mp hvalid⟩, rfl, ?_⟩
  obtain ⟨hl1, hl2, hl3, hl4⟩ := sequenceLength_iff lead
  rw [isOverlongSequence_iff] at hshort
  have hlt := (isCodePointValid_iff cp).mp hvalid
  unfold String.utf8EncodeChar
  rcases getSequence_ok hsequence with ⟨hlength, rfl, rfl⟩ | ⟨b, hlength, rfl, hb, rfl⟩ |
    ⟨b, c, hlength, rfl, hb, hc, rfl⟩ | ⟨b, c, d, hlength, rfl, hb, hc, hd, rfl⟩
  · have hlead := hl1.mp hlength
    rw [UInt8.toNat_toUInt32] at *
    rw [if_pos (by omega), UInt8.ofNat_toNat]
    rfl
  · have hlead := hl2.mp hlength
    have htrail := (isTrail_iff b).mp hb
    have hcp := toNat_codePoint2 lead b
    rw [hlength] at hshort
    have hbyte₁ : UInt8.ofNat ((codePoint2 lead b).toNat / 64 % 32 + 192) = lead := by
      rw [← UInt8.toNat_inj, UInt8.toNat_ofNat']
      omega
    have hbyte₂ : UInt8.ofNat ((codePoint2 lead b).toNat % 64 + 128) = b := by
      rw [← UInt8.toNat_inj, UInt8.toNat_ofNat']
      omega
    dsimp only
    rw [if_neg (show ¬ (codePoint2 lead b).toNat ≤ 0x7f by omega),
      if_pos (show (codePoint2 lead b).toNat ≤ 0x7ff by omega), hbyte₁, hbyte₂]
    rfl
  · have hlead := hl3.mp hlength
    have htrail₁ := (isTrail_iff b).mp hb
    have htrail₂ := (isTrail_iff c).mp hc
    have hcp := toNat_codePoint3 lead b c
    rw [hlength] at hshort
    have hbyte₁ : UInt8.ofNat ((codePoint3 lead b c).toNat / 4096 % 16 + 224) = lead := by
      rw [← UInt8.toNat_inj, UInt8.toNat_ofNat']
      omega
    have hbyte₂ : UInt8.ofNat ((codePoint3 lead b c).toNat / 64 % 64 + 128) = b := by
      rw [← UInt8.toNat_inj, UInt8.toNat_ofNat']
      omega
    have hbyte₃ : UInt8.ofNat ((codePoint3 lead b c).toNat % 64 + 128) = c := by
      rw [← UInt8.toNat_inj, UInt8.toNat_ofNat']
      omega
    dsimp only
    rw [if_neg (show ¬ (codePoint3 lead b c).toNat ≤ 0x7f by omega),
      if_neg (show ¬ (codePoint3 lead b c).toNat ≤ 0x7ff by omega),
      if_pos (show (codePoint3 lead b c).toNat ≤ 0xffff by omega), hbyte₁, hbyte₂, hbyte₃]
    rfl
  · have hlead := hl4.mp hlength
    have htrail₁ := (isTrail_iff b).mp hb
    have htrail₂ := (isTrail_iff c).mp hc
    have htrail₃ := (isTrail_iff d).mp hd
    have hcp := toNat_codePoint4 lead b c d
    rw [hlength] at hshort
    have hbyte₁ : UInt8.ofNat ((codePoint4 lead b c d).toNat / 262144 % 8 + 240) = lead := by
      rw [← UInt8.toNat_inj, UInt8.toNat_ofNat']
      omega
    have hbyte₂ : UInt8.ofNat ((codePoint4 lead b c d).toNat / 4096 % 64 + 128) = b := by
      rw [← UInt8.toNat_inj, UInt8.toNat_ofNat']
      omega
    have hbyte₃ : UInt8.ofNat ((codePoint4 lead b c d).toNat / 64 % 64 + 128) = c := by
      rw [← UInt8.toNat_inj, UInt8.toNat_ofNat']
      omega
    have hbyte₄ : UInt8.ofNat ((codePoint4 lead b c d).toNat % 64 + 128) = d := by
      rw [← UInt8.toNat_inj, UInt8.toNat_ofNat']
      omega
    dsimp only
    rw [if_neg (show ¬ (codePoint4 lead b c d).toNat ≤ 0x7f by omega),
      if_neg (show ¬ (codePoint4 lead b c d).toNat ≤ 0x7ff by omega),
      if_neg (show ¬ (codePoint4 lead b c d).toNat ≤ 0xffff by omega), hbyte₁, hbyte₂, hbyte₃, hbyte₄]
    rfl

end Utf8

end Strings
end Hiaux
