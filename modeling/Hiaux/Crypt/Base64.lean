import Hiaux.Lib.Bytes

/-!
# `Crypt.Base64` — the vendored encoder and decoder

`base64_decode` reads characters of the alphabet until the first one that is none, four at a time. What is
left at the end is filled up with zero bytes, whose position in the alphabet is `npos`. `base64_encode` writes
four characters for three bytes, and fills the last group up with `=`.
-/

namespace Hiaux
namespace Base64

open Lib

/-- `base64_chars`. -/
def base64Chars : Bytes := ascii "ABCDEFGHIJKLMNOPQRSTUVWXYZabcdefghijklmnopqrstuvwxyz0123456789+/"

/-- `is_base64`, in the locale `"C"`. -/
def isBase64 (c : UInt8) : Bool :=
  isDigit c || (65 ≤ c && c ≤ 90) || (97 ≤ c && c ≤ 122) || c == 43 || c == 47

/-- `base64_chars.find(c)` as an `unsigned char`: `npos` becomes `255`. -/
def charIndex (c : UInt8) : UInt8 :=
  match find c base64Chars with
  | some p => UInt8.ofNat p
  | none => 255

/-- The three bytes of four characters. -/
def decodeQuad (c₀ c₁ c₂ c₃ : UInt8) : Bytes :=
  let i₀ := charIndex c₀
  let i₁ := charIndex c₁
  let i₂ := charIndex c₂
  let i₃ := charIndex c₃
  [(i₀ <<< 2) + ((i₁ &&& 0x30) >>> 4), ((i₁ &&& 0xf) <<< 4) + ((i₂ &&& 0x3c) >>> 2),
    ((i₂ &&& 0x3) <<< 6) + i₃]

/-- The characters that were read, in groups of four; a group of `i` characters at the end gives `i - 1`
    bytes. -/
def decodeQuads : Bytes → Bytes
  | c₀ :: c₁ :: c₂ :: c₃ :: rest => decodeQuad c₀ c₁ c₂ c₃ ++ decodeQuads rest
  | [c₀, c₁, c₂] => (decodeQuad c₀ c₁ c₂ 0).take 2
  | [c₀, c₁] => (decodeQuad c₀ c₁ 0 0).take 1
  | [c₀] => (decodeQuad c₀ 0 0 0).take 0
  | [] => []

/-- The characters the loop may look at: the length is an `int`, and a negative one never counts down to
    zero. -/
def readable (s : Bytes) : Bytes :=
  if s.length % 2 ^ 32 < 2 ^ 31 then s.take (s.length % 2 ^ 32) else s

/-- `base64_decode`. -/
def base64Decode (s : Bytes) : Bytes :=
  decodeQuads ((readable s).takeWhile (fun c => c != 61 && isBase64 c))

/-- The decoder stops at the first character that is not in the alphabet; if that is the first one, nothing
    is decoded. -/
theorem base64Decode_cons {c : UInt8} (h : isBase64 c = false) (s : Bytes) :
    base64Decode (c :: s) = [] := by
  have hrun : ∀ t : Bytes, t <+: c :: s → t.takeWhile (fun c => c != 61 && isBase64 c) = [] := by
    intro t ht
    cases t with
    | nil => rfl
    | cons d t =>
        obtain rfl := (List.cons_prefix_cons.mp ht).1
        simp [h]
  unfold base64Decode readable
  split
  · rw [hrun _ (List.take_prefix _ _)]
    rfl
  · rw [hrun _ List.prefix_rfl]
    rfl

@[simp] theorem base64Decode_nil : base64Decode [] = [] := rfl

example : base64Decode (ascii "aGlhdXg=") = ascii "hiaux" := by decide

/-- `base64_decode_vec`, a copy of `base64_decode` that collects the bytes in a vector. -/
def base64DecodeVec (s : Bytes) : Bytes :=
  decodeQuads ((readable s).takeWhile (fun c => c != 61 && isBase64 c))

/-! ## The encoder -/

/-- `base64_chars[i]`. -/
def base64Char (i : UInt8) : UInt8 := base64Chars.getD i.toNat 0

/-- The four characters of three bytes. -/
def encodeTriple (b₀ b₁ b₂ : UInt8) : Bytes :=
  [base64Char ((b₀ &&& 0xfc) >>> 2), base64Char (((b₀ &&& 0x03) <<< 4) + ((b₁ &&& 0xf0) >>> 4)),
    base64Char (((b₁ &&& 0x0f) <<< 2) + ((b₂ &&& 0xc0) >>> 6)), base64Char (b₂ &&& 0x3f)]

/-- `base64_encode`: of a group of `i` bytes at the end, `i + 1` characters are written, and `=` for the others. -/
def base64Encode : Bytes → Bytes
  | b₀ :: b₁ :: b₂ :: rest => encodeTriple b₀ b₁ b₂ ++ base64Encode rest
  | [b₀, b₁] => (encodeTriple b₀ b₁ 0).take 3 ++ [61]
  | [b₀] => (encodeTriple b₀ 0 0).take 2 ++ [61, 61]
  | [] => []

end Base64
end Hiaux
