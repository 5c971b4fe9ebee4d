import Hiaux.Crypt.Base64

/-!
# `Crypt.Correctness.Base64Codec` — the encoder and the decoder are inverse to each other

Three bytes are four numbers below 64 (`sextet`), and four such numbers are three bytes (`octet`). The decoder takes
back what the encoder writes, for every sequence of bytes (`base64Decode_base64Encode`), and the encoder writes again
what was decoded exactly for the texts in `canonical` form: whole groups, filled up with `=`, and no bit set that no
byte uses.
-/

namespace Hiaux
namespace Base64

open Lib

/-! ## The alphabet -/

/-- The characters of the alphabet stand where `find` looks for them. -/
theorem charIndex_base64Char {i : UInt8} (h : i.toNat < 64) :
    charIndex (base64Char i) = i ∧ isBase64 (base64Char i) = true ∧ base64Char i ≠ 61 := by
  have hall : ∀ n : Fin 64, charIndex (base64Char (UInt8.ofNat n)) = UInt8.ofNat n ∧
      isBase64 (base64Char (UInt8.ofNat n)) = true ∧ base64Char (UInt8.ofNat n) ≠ 61 := by decide +kernel
  simpa using hall ⟨i.toNat, h⟩

/-- What `is_base64` accepts is in the alphabet. -/
theorem base64Char_charIndex {c : UInt8} (h : isBase64 c = true) :
    base64Char (charIndex c) = c ∧ (charIndex c).toNat < 64 ∧ c ≠ 61 := by
  have hall : ∀ n : Fin 256, isBase64 (UInt8.ofFin n) = true →
      base64Char (charIndex (UInt8.ofFin n)) = UInt8.ofFin n ∧ (charIndex (UInt8.ofFin n)).toNat < 64 ∧
        UInt8.ofFin n ≠ 61 := by decide +kernel
  exact hall c.toFin h

/-! ## Bits as numbers -/

/-- The masks of the encoder and of the decoder cut a byte into two numbers. -/
theorem masks (b : UInt8) :
    ((b &&& 0xfc) >>> 2).toNat = b.toNat / 4 ∧ ((b &&& 0x03) <<< 4).toNat = b.toNat % 4 * 16 ∧
      ((b &&& 0xf0) >>> 4).toNat = b.toNat / 16 ∧ ((b &&& 0x0f) <<< 2).toNat = b.toNat % 16 * 4 ∧
      ((b &&& 0xc0) >>> 6).toNat = b.toNat / 64 ∧ (b &&& 0x3f).toNat = b.toNat % 64 ∧
      (b <<< 2).toNat = b.toNat * 4 % 256 ∧ ((b &&& 0x30) >>> 4).toNat = b.toNat / 16 % 4 ∧
      ((b &&& 0xf) <<< 4).toNat = b.toNat % 16 * 16 ∧ ((b &&& 0x3c) >>> 2).toNat = b.toNat / 4 % 16 ∧
      ((b &&& 0x3) <<< 6).toNat = b.toNat % 4 * 64 := by
  have hall : ∀ n : Fin 256, (fun b : UInt8 =>
      ((b &&& 0xfc) >>> 2).toNat = b.toNat / 4 ∧ ((b &&& 0x03) <<< 4).toNat = b.toNat % 4 * 16 ∧
        ((b &&& 0xf0) >>> 4).toNat = b.toNat / 16 ∧ ((b &&& 0x0f) <<< 2).toNat = b.toNat % 16 * 4 ∧
        ((b &&& 0xc0) >>> 6).toNat = b.toNat / 64 ∧ (b &&& 0x3f).toNat = b.toNat % 64 ∧
        (b <<< 2).toNat = b.toNat * 4 % 256 ∧ ((b &&& 0x30) >>> 4).toNat = b.toNat / 16 % 4 ∧
        ((b &&& 0xf) <<< 4).toNat = b.toNat % 16 * 16 ∧ ((b &&& 0x3c) >>> 2).toNat = b.toNat / 4 % 16 ∧
        ((b &&& 0x3) <<< 6).toNat = b.toNat % 4 * 64) (UInt8.ofFin n) := by decide +kernel
  exact hall b.toFin

/-- The numbers whose characters the encoder writes. -/
def sextet (b₀ b₁ b₂ : UInt8) : Nat → UInt8
  | 0 => (b₀ &&& 0xfc) >>> 2
  | 1 => ((b₀ &&& 0x03) <<< 4) + ((b₁ &&& 0xf0) >>> 4)
  | 2 => ((b₁ &&& 0x0f) <<< 2) + ((b₂ &&& 0xc0) >>> 6)
  | _ => b₂ &&& 0x3f

/-- The bytes the decoder makes of four positions in the alphabet. -/
def octet (i₀ i₁ i₂ i₃ : UInt8) : Nat → UInt8
  | 0 => (i₀ <<< 2) + ((i₁ &&& 0x30) >>> 4)
  | 1 => ((i₁ &&& 0xf) <<< 4) + ((i₂ &&& 0x3c) >>> 2)
  | _ => ((i₂ &&& 0x3) <<< 6) + i₃

theorem encodeTriple_eq (b₀ b₁ b₂ : UInt8) :
    encodeTriple b₀ b₁ b₂ = (List.range 4).map (fun k => base64Char (sextet b₀ b₁ b₂ k)) := rfl

theorem decodeQuad_eq (c₀ c₁ c₂ c₃ : UInt8) :
    decodeQuad c₀ c₁ c₂ c₃ =
      (List.range 3).map (octet (charIndex c₀) (charIndex c₁) (charIndex c₂) (charIndex c₃)) := rfl

theorem toNat_sextet (b₀ b₁ b₂ : UInt8) :
    (sextet b₀ b₁ b₂ 0).toNat = b₀.toNat / 4 ∧
      (sextet b₀ b₁ b₂ 1).toNat = b₀.toNat % 4 * 16 + b₁.toNat / 16 ∧
      (sextet b₀ b₁ b₂ 2).toNat = b₁.toNat % 16 * 4 + b₂.toNat / 64 ∧
      (sextet b₀ b₁ b₂ 3).toNat = b₂.toNat % 64 := by
  have h₁ := b₁.toNat_lt
  have h₂ := b₂.toNat_lt
  obtain ⟨hfc, h03, -⟩ := masks b₀
  obtain ⟨-, -, hf0, h0f, -⟩ := masks b₁
  obtain ⟨-, -, -, -, hc0, h3f, -⟩ := masks b₂
  refine ⟨hfc, ?_, ?_, h3f⟩
  · rw [sextet, UInt8.toNat_add, h03, hf0]
    omega
  · rw [sextet, UInt8.toNat_add, h0f, hc0]
    omega

theorem toNat_octet (i₀ i₁ i₂ i₃ : UInt8) :
    (octet i₀ i₁ i₂ i₃ 0).toNat = (i₀.toNat * 4 + i₁.toNat / 16 % 4) % 256 ∧
      (octet i₀ i₁ i₂ i₃ 1).toNat = i₁.toNat % 16 * 16 + i₂.toNat / 4 % 16 ∧
      (octet i₀ i₁ i₂ i₃ 2).toNat = (i₂.toNat % 4 * 64 + i₃.toNat) % 256 := by
  obtain ⟨-, -, -, -, -, -, h2, -⟩ := masks i₀
  obtain ⟨-, -, -, -, -, -, -, h30, hf, -⟩ := masks i₁
  obtain ⟨-, -, -, -, -, -, -, -, -, h3c, h3⟩ := masks i₂
  refine ⟨?_, ?_, ?_⟩
  · rw [octet, UInt8.toNat_add, h2, h30]
    omega
  · rw [octet, UInt8.toNat_add, hf, h3c]
    omega
  · exact (UInt8.toNat_add _ _).trans (by rw [h3])

/-- Every number the encoder looks up is below 64. -/
theorem sextet_lt (b₀ b₁ b₂ : UInt8) (k : Nat) : (sextet b₀ b₁ b₂ k).toNat < 64 := by
  have h₀ := b₀.toNat_lt
  have h₁ := b₁.toNat_lt
  have h₂ := b₂.toNat_lt
  obtain ⟨hs₀, hs₁, hs₂, hs₃⟩ := toNat_sextet b₀ b₁ b₂
  match k with
  | 0 => omega
  | 1 => omega
  | 2 => omega
  | k + 3 =>
      have hlast : sextet b₀ b₁ b₂ (k + 3) = sextet b₀ b₁ b₂ 3 := rfl
      rw [hlast]
      omega

/-! ## One group -/

theorem octet_sextet (b₀ b₁ b₂ : UInt8) :
    (List.range 3).map (octet (sextet b₀ b₁ b₂ 0) (sextet b₀ b₁ b₂ 1) (sextet b₀ b₁ b₂ 2) (sextet b₀ b₁ b₂ 3)) =
      [b₀, b₁, b₂] := by
  have h₀ := b₀.toNat_lt
  have h₁ := b₁.toNat_lt
  have h₂ := b₂.toNat_lt
  obtain ⟨hs₀, hs₁, hs₂, hs₃⟩ := toNat_sextet b₀ b₁ b₂
  obtain ⟨ho₀, ho₁, ho₂⟩ := toNat_octet (sextet b₀ b₁ b₂ 0) (sextet b₀ b₁ b₂ 1) (sextet b₀ b₁ b₂ 2) (sextet b₀ b₁ b₂ 3)
  have hb₀ := UInt8.toNat_inj.mp (ho₀.trans (show _ = b₀.toNat by omega))
  have hb₁ := UInt8.toNat_inj.mp (ho₁.trans (show _ = b₁.toNat by omega))
  have hb₂ := UInt8.toNat_inj.mp (ho₂.trans (show _ = b₂.toNat by omega))
  simp [List.range_succ, hb₀, hb₁, hb₂]

/-- The decoder takes a group of the encoder back. -/
theorem decodeQuad_sextets (b₀ b₁ b₂ : UInt8) :
    decodeQuad (base64Char (sextet b₀ b₁ b₂ 0)) (base64Char (sextet b₀ b₁ b₂ 1)) (base64Char (sextet b₀ b₁ b₂ 2))
      (base64Char (sextet b₀ b₁ b₂ 3)) = [b₀, b₁, b₂] := by
  have hindex := fun k => (charIndex_base64Char (sextet_lt b₀ b₁ b₂ k)).1
  rw [decodeQuad_eq, hindex, hindex, hindex, hindex, octet_sextet]

theorem sextet_octet {i₀ i₁ i₂ i₃ : UInt8} (h₀ : i₀.toNat < 64) (h₁ : i₁.toNat < 64) (h₂ : i₂.toNat < 64)
    (h₃ : i₃.toNat < 64) :
    (List.range 4).map (sextet (octet i₀ i₁ i₂ i₃ 0) (octet i₀ i₁ i₂ i₃ 1) (octet i₀ i₁ i₂ i₃ 2)) =
      [i₀, i₁, i₂, i₃] := by
  obtain ⟨ho₀, ho₁, ho₂⟩ := toNat_octet i₀ i₁ i₂ i₃
  obtain ⟨hs₀, hs₁, hs₂, hs₃⟩ := toNat_sextet (octet i₀ i₁ i₂ i₃ 0) (octet i₀ i₁ i₂ i₃ 1) (octet i₀ i₁ i₂ i₃ 2)
  have hi₀ := UInt8.toNat_inj.mp (hs₀.trans (show _ = i₀.toNat by omega))
  have hi₁ := UInt8.toNat_inj.mp (hs₁.trans (show _ = i₁.toNat by omega))
  have hi₂ := UInt8.toNat_inj.mp (hs₂.trans (show _ = i₂.toNat by omega))
  have hi₃ := UInt8.toNat_inj.mp (hs₃.trans (show _ = i₃.toNat by omega))
  simp [List.range_succ, hi₀, hi₁, hi₂, hi₃]

/-! ## Texts -/

/-- The characters the decoder reads. -/
def characters (s : Bytes) : Bytes := s.takeWhile (fun c => c != 61 && isBase64 c)

theorem characters_cons {c : UInt8} (h : isBase64 c = true) (s : Bytes) :
    characters (c :: s) = c :: characters s := by
  apply List.takeWhile_cons_of_pos
  rw [h, Bool.and_true]
  exact bne_iff_ne.mpr (base64Char_charIndex h).2.2

theorem characters_pad (s : Bytes) : characters (61 :: s) = [] := rfl

theorem readable_of_lt {s : Bytes} (h : s.length < 2 ^ 31) : readable s = s := by
  have hmod : s.length % 2 ^ 32 = s.length := Nat.mod_eq_of_lt (by omega)
  rw [readable, hmod, if_pos h, List.take_length]

theorem base64Decode_of_lt {s : Bytes} (h : s.length < 2 ^ 31) :
    base64Decode s = decodeQuads (characters s) ∧ base64DecodeVec s = decodeQuads (characters s) := by
  rw [base64Decode, base64DecodeVec, readable_of_lt h, characters, and_self]

/-- The encoding has four characters for every three bytes, and for what is left. -/
theorem length_base64Encode (bytes : Bytes) : (base64Encode bytes).length = 4 * ((bytes.length + 2) / 3) := by
  induction bytes using base64Encode.induct with
  | case1 b₀ b₁ b₂ rest ih =>
      rw [base64Encode, List.length_append, ih]
      simp only [encodeTriple, List.length_cons, List.length_nil]
      omega
  | case2 b₀ b₁ => simp [base64Encode, encodeTriple]
  | case3 b₀ => simp [base64Encode, encodeTriple]
  | case4 => rfl

/-- What the encoder writes, group by group, with the numbers that it looks up. -/
theorem base64Encode_triple (b₀ b₁ b₂ : UInt8) (rest : Bytes) :
    base64Encode (b₀ :: b₁ :: b₂ :: rest) =
      base64Char (sextet b₀ b₁ b₂ 0) :: base64Char (sextet b₀ b₁ b₂ 1) :: base64Char (sextet b₀ b₁ b₂ 2) ::
        base64Char (sextet b₀ b₁ b₂ 3) :: base64Encode rest := by
  rw [base64Encode, encodeTriple_eq]
  rfl

theorem base64Encode_pair (b₀ b₁ : UInt8) :
    base64Encode [b₀, b₁] =
      [base64Char (sextet b₀ b₁ 0 0), base64Char (sextet b₀ b₁ 0 1), base64Char (sextet b₀ b₁ 0 2), 61] := by
  rw [base64Encode, encodeTriple_eq]
  rfl

theorem base64Encode_single (b₀ : UInt8) :
    base64Encode [b₀] = [base64Char (sextet b₀ 0 0 0), base64Char (sextet b₀ 0 0 1), 61, 61] := by
  rw [base64Encode, encodeTriple_eq]
  rfl

theorem decodeQuads_characters_base64Encode (bytes : Bytes) :
    decodeQuads (characters (base64Encode bytes)) = bytes := by
  have halphabet := fun b₀ b₁ b₂ k => (charIndex_base64Char (sextet_lt b₀ b₁ b₂ k)).2.1
  induction bytes using base64Encode.induct with
  | case1 b₀ b₁ b₂ rest ih =>
      rw [base64Encode_triple, characters_cons (halphabet ..), characters_cons (halphabet ..),
        characters_cons (halphabet ..), characters_cons (halphabet ..), decodeQuads, decodeQuad_sextets, ih]
      rfl
  | case2 b₀ b₁ =>
      -- The character that is missing only has a part in the third byte.
      rw [base64Encode_pair, characters_cons (halphabet ..), characters_cons (halphabet ..),
        characters_cons (halphabet ..), characters_pad]
      exact congrArg (List.take 2) (decodeQuad_sextets b₀ b₁ 0)
  | case3 b₀ =>
      rw [base64Encode_single, characters_cons (halphabet ..), characters_cons (halphabet ..), characters_pad]
      exact congrArg (List.take 1) (decodeQuad_sextets b₀ 0 0)
  | case4 => rfl

/-- **The round trip**: both decoders give back every sequence of bytes whose encoding they can count. -/
theorem base64Decode_base64Encode {bytes : Bytes} (h : bytes.length ≤ 3 * (2 ^ 29 - 1)) :
    base64Decode (base64Encode bytes) = bytes ∧ base64DecodeVec (base64Encode bytes) = bytes := by
  have hlength : (base64Encode bytes).length < 2 ^ 31 := by
    rw [length_base64Encode]
    omega
  obtain ⟨hstring, hvector⟩ := base64Decode_of_lt hlength
  have hdecode := decodeQuads_characters_base64Encode bytes
  exact ⟨hstring.trans hdecode, hvector.trans hdecode⟩

theorem base64Decode_base64Encode_hiaux :
    base64Decode (base64Encode (ascii "hiaux")) = ascii "hiaux" ∧
      base64DecodeVec (base64Encode (ascii "hiaux")) = ascii "hiaux" :=
  base64Decode_base64Encode (by decide)

/-! ## Canonical texts -/

/-- The texts that are encodings: whole groups, the last of which may be filled up with one or two `=`; then the bits
    that no byte uses are not set. -/
inductive Canonical : Bytes → Prop
  | nil : Canonical []
  | one {c₀ c₁ : UInt8} : isBase64 c₀ = true → isBase64 c₁ = true → (charIndex c₁).toNat % 16 = 0 →
      Canonical [c₀, c₁, 61, 61]
  | two {c₀ c₁ c₂ : UInt8} : isBase64 c₀ = true → isBase64 c₁ = true → isBase64 c₂ = true →
      (charIndex c₂).toNat % 4 = 0 → Canonical [c₀, c₁, c₂, 61]
  | group {c₀ c₁ c₂ c₃ : UInt8} {rest : Bytes} : isBase64 c₀ = true → isBase64 c₁ = true → isBase64 c₂ = true →
      isBase64 c₃ = true → Canonical rest → Canonical (c₀ :: c₁ :: c₂ :: c₃ :: rest)

theorem canonical_base64Encode (bytes : Bytes) : Canonical (base64Encode bytes) := by
  have halphabet := fun b₀ b₁ b₂ k => (charIndex_base64Char (sextet_lt b₀ b₁ b₂ k)).2.1
  have hindex := fun b₀ b₁ b₂ k => (charIndex_base64Char (sextet_lt b₀ b₁ b₂ k)).1
  induction bytes using base64Encode.induct with
  | case1 b₀ b₁ b₂ rest ih =>
      rw [base64Encode_triple]
      exact .group (halphabet ..) (halphabet ..) (halphabet ..) (halphabet ..) ih
  | case2 b₀ b₁ =>
      rw [base64Encode_pair]
      apply Canonical.two (halphabet ..) (halphabet ..) (halphabet ..)
      rw [hindex, (toNat_sextet b₀ b₁ 0).2.2.1]
      simp
  | case3 b₀ =>
      rw [base64Encode_single]
      apply Canonical.one (halphabet ..) (halphabet ..)
      rw [hindex, (toNat_sextet b₀ 0 0).2.1]
      simp
  | case4 => exact .nil

/-- The encoder takes a group of the decoder back. -/
theorem base64Char_sextet_octet {c₀ c₁ : UInt8} {i₂ i₃ : UInt8} (h₀ : isBase64 c₀ = true) (h₁ : isBase64 c₁ = true)
    (h₂ : i₂.toNat < 64) (h₃ : i₃.toNat < 64) :
    (List.range 4).map (fun k => base64Char (sextet (octet (charIndex c₀) (charIndex c₁) i₂ i₃ 0)
      (octet (charIndex c₀) (charIndex c₁) i₂ i₃ 1) (octet (charIndex c₀) (charIndex c₁) i₂ i₃ 2) k)) =
      [c₀, c₁, base64Char i₂, base64Char i₃] := by
  obtain ⟨hc₀, hi₀, -⟩ := base64Char_charIndex h₀
  obtain ⟨hc₁, hi₁, -⟩ := base64Char_charIndex h₁
  have hback := congrArg (List.map base64Char) (sextet_octet hi₀ hi₁ h₂ h₃)
  rw [List.map_map] at hback
  refine hback.trans ?_
  rw [List.map_cons, List.map_cons, List.map_cons, List.map_cons, hc₀, hc₁, List.map_nil]

theorem base64Encode_decodeQuads {s : Bytes} (h : Canonical s) :
    base64Encode (decodeQuads (characters s)) = s := by
  induction h with
  | nil => rfl
  | @one c₀ c₁ h₀ h₁ hbits =>
      -- Two positions that are zero stand for the characters that are missing.
      have hback := base64Char_sextet_octet h₀ h₁ (show (0 : UInt8).toNat < 64 by decide)
        (show (0 : UInt8).toNat < 64 by decide)
      obtain ⟨-, ho₁, ho₂⟩ := toNat_octet (charIndex c₀) (charIndex c₁) 0 0
      have hzero₁ : octet (charIndex c₀) (charIndex c₁) 0 0 1 = 0 := UInt8.toNat_inj.mp (ho₁.trans (by simp [hbits]))
      have hzero₂ : octet (charIndex c₀) (charIndex c₁) 0 0 2 = 0 := UInt8.toNat_inj.mp (ho₂.trans (by simp))
      rw [hzero₁, hzero₂] at hback
      rw [characters_cons h₀, characters_cons h₁, characters_pad]
      change base64Encode [octet (charIndex c₀) (charIndex c₁) 0 0 0] = _
      rw [base64Encode_single]
      simp only [List.range_succ, List.range_zero, List.map_cons, List.map_nil, List.nil_append,
        List.cons_append, List.cons.injEq] at hback
      rw [hback.1, hback.2.1]
  | @two c₀ c₁ c₂ h₀ h₁ h₂ hbits =>
      obtain ⟨hc₂, hi₂, -⟩ := base64Char_charIndex h₂
      have hback := base64Char_sextet_octet h₀ h₁ hi₂ (show (0 : UInt8).toNat < 64 by decide)
      obtain ⟨-, -, ho₂⟩ := toNat_octet (charIndex c₀) (charIndex c₁) (charIndex c₂) 0
      have hzero₂ : octet (charIndex c₀) (charIndex c₁) (charIndex c₂) 0 2 = 0 :=
        UInt8.toNat_inj.mp (ho₂.trans (by simp [hbits]))
      rw [hzero₂, hc₂] at hback
      rw [characters_cons h₀, characters_cons h₁, characters_cons h₂, characters_pad]
      change base64Encode [octet (charIndex c₀) (charIndex c₁) (charIndex c₂) 0 0,
        octet (charIndex c₀) (charIndex c₁) (charIndex c₂) 0 1] = _
      rw [base64Encode_pair]
      simp only [List.range_succ, List.range_zero, List.map_cons, List.map_nil, List.nil_append,
        List.cons_append, List.cons.injEq] at hback
      rw [hback.1, hback.2.1, hback.2.2.1]
  | @group c₀ c₁ c₂ c₃ rest h₀ h₁ h₂ h₃ _ ih =>
      obtain ⟨hc₂, hi₂, -⟩ := base64Char_charIndex h₂
      obtain ⟨hc₃, hi₃, -⟩ := base64Char_charIndex h₃
      have hback := base64Char_sextet_octet h₀ h₁ hi₂ hi₃
      rw [hc₂, hc₃] at hback
      rw [characters_cons h₀, characters_cons h₁, characters_cons h₂, characters_cons h₃, decodeQuads, decodeQuad_eq]
      refine (base64Encode_triple _ _ _ (decodeQuads (characters rest))).trans ?_
      rw [ih]
      exact congrArg (· ++ rest) hback

/-- **Which texts are encoded again as they were**: exactly those in canonical form. -/
theorem base64Encode_base64Decode_iff {s : Bytes} (h : s.length < 2 ^ 31) :
    base64Encode (base64Decode s) = s ↔ Canonical s := by
  rw [(base64Decode_of_lt h).1]
  constructor
  · intro hback
    rw [← hback]
    exact canonical_base64Encode _
  · intro hcanonical
    exact base64Encode_decodeQuads hcanonical

theorem base64Encode_base64Decode_hiaux :
    base64Encode (base64Decode (ascii "aGlhdXg=")) = ascii "aGlhdXg=" ∧ Canonical (ascii "aGlhdXg=") := by
  have hback : base64Encode (base64Decode (ascii "aGlhdXg=")) = ascii "aGlhdXg=" := by decide +kernel
  exact ⟨hback, (base64Encode_base64Decode_iff (by decide)).mp hback⟩

end Base64
end Hiaux
