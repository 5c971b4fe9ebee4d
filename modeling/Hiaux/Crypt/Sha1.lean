import Hiaux.Lib.Bytes

/-!
# `Crypt.Sha1` — the vendored SHA-1

Lengths are `int`s, as in the source: a length that does not fit is negative, and then no byte of the input
is read. The functions on strings put the digest into an array and read it back as a C string.
-/

namespace Hiaux
namespace Sha1

open Lib

/-- `rol`. -/
def rol (value steps : UInt32) : UInt32 := (value <<< steps) ||| (value >>> (32 - steps))

/-- The five words that are rotated through, and `result`. -/
structure Words where
  a : UInt32
  b : UInt32
  c : UInt32
  d : UInt32
  e : UInt32
deriving DecidableEq, Repr

/-- The function and the constant of a round. -/
def roundFunc (round : Nat) (x : Words) : UInt32 × UInt32 :=
  if round < 20 then ((x.b &&& x.c) ||| (~~~ x.b &&& x.d), 0x5a827999)
  else if round < 40 then (x.b ^^^ x.c ^^^ x.d, 0x6ed9eba1)
  else if round < 60 then ((x.b &&& x.c) ||| (x.b &&& x.d) ||| (x.c &&& x.d), 0x8f1bbcdc)
  else (x.b ^^^ x.c ^^^ x.d, 0xca62c1d6)

/-- A round of `innerHash`; from the sixteenth on it fills in its word of `w` first. -/
def innerRound (x : Words × Array UInt32) (round : Nat) : Words × Array UInt32 :=
  let w := if round < 16 then x.2 else
    x.2.setIfInBounds round
      (rol (x.2.getD (round - 3) 0 ^^^ x.2.getD (round - 8) 0 ^^^ x.2.getD (round - 14) 0 ^^^
        x.2.getD (round - 16) 0) 1)
  let (func, val) := roundFunc round x.1
  let t := rol x.1.a 5 + func + x.1.e + val + w.getD round 0
  (⟨t, x.1.a, rol x.1.b 30, x.1.c, x.1.d⟩, w)

/-- `innerHash`. -/
def innerHash (result : Words) (w : Array UInt32) : Words × Array UInt32 :=
  let (x, w) := (List.range 80).foldl innerRound (result, w)
  (⟨result.a + x.a, result.b + x.b, result.c + x.c, result.d + x.d, result.e + x.e⟩, w)

/-- `clearWBuffert`. -/
def clearWBuffert (w : Array UInt32) : Array UInt32 :=
  (List.range 16).foldl (fun w pos => w.setIfInBounds pos 0) w

/-- A byte of the input, as an `unsigned int`. -/
def byteAt (sarray : Bytes) (pos : Nat) : UInt32 := (sarray.getD pos 0).toUInt32

/-- The sixteen words of the block that starts at `currentBlock`. -/
def loadBlock (sarray : Bytes) (currentBlock : Nat) (w : Array UInt32) : Array UInt32 :=
  (List.range 16).foldl (fun w roundPos =>
    let pos := currentBlock + 4 * roundPos
    w.setIfInBounds roundPos
      (byteAt sarray (pos + 3) ||| (byteAt sarray (pos + 2) <<< 8) ||| (byteAt sarray (pos + 1) <<< 16) |||
        (byteAt sarray pos <<< 24))) w

/-- `w[pos >> 2] |= byte << ((3 - (pos & 3)) << 3)`. -/
def orByte (w : Array UInt32) (pos : Nat) (byte : UInt32) : Array UInt32 :=
  w.setIfInBounds (pos / 4) (w.getD (pos / 4) 0 ||| (byte <<< UInt32.ofNat ((3 - pos % 4) * 8)))

/-- The bytes of the hash, from its words. -/
def storeHash (result : Words) : Bytes :=
  [result.a, result.b, result.c, result.d, result.e].flatMap
    (fun x : UInt32 => [(x >>> 24).toUInt8, (x >>> 16).toUInt8, (x >>> 8).toUInt8, x.toUInt8])

/-- `sha1::calc` on `bytelength` bytes. -/
def calcHash (src : Bytes) (bytelength : Int) : Bytes :=
  let blocks := bytelength.toNat / 64
  let (result, w) := (List.range blocks).foldl
    (fun (x : Words × Array UInt32) block => innerHash x.1 (loadBlock src (64 * block) x.2))
    (⟨0x67452301, 0xefcdab89, 0x98badcfe, 0x10325476, 0xc3d2e1f0⟩, Array.replicate 80 0)
  let currentBlock := 64 * blocks
  let endCurrentBlock := bytelength.toNat - currentBlock
  let w := (List.range endCurrentBlock).foldl
    (fun w lastBlockBytes => orByte w lastBlockBytes (byteAt src (lastBlockBytes + currentBlock)))
    (clearWBuffert w)
  let w := orByte w endCurrentBlock 0x80
  let (result, w) :=
    if 56 ≤ endCurrentBlock then
      let (result, w) := innerHash result w
      (result, clearWBuffert w)
    else (result, w)
  storeHash (innerHash result (w.setIfInBounds 15 (UInt32.ofInt (bytelength * 8)))).1

/-- A hexadecimal digit. -/
def hexDigit (n : UInt8) : UInt8 := (ascii "0123456789abcdef").getD n.toNat 0

/-- `sha1::toHexString`, without the zero at its end. -/
def toHexString (hash : Bytes) : Bytes :=
  (hash.take 20).flatMap (fun byte : UInt8 => [hexDigit (byte >>> 4), hexDigit (byte &&& 0xf)])

/-! ## Strings -/

/-- The bytes that `sha1::calc(_src.data(), _src.size(), hash)` stores. -/
def calcBytes (src : Bytes) : Bytes := calcHash src (Int.bmod src.length (2 ^ 32))

/-- `sha1::calc` of a string; `unset` is what stands in the array `hash[40]` behind the digest, where nothing is
    written. Without a NUL in the array the reading goes on behind it. -/
def calcString (src : Bytes) (unset : Vector UInt8 20) : Option Bytes :=
  let hash := calcBytes src ++ unset.toList
  if 0 ∈ hash then some (cStr hash) else none

/-- `sha1::toHex`, which reads twenty bytes of a string and the NUL behind it; there may be fewer. -/
def toHex (s : Bytes) : Option Bytes :=
  let data := s ++ [0]
  if 20 ≤ data.length then some (toHexString data) else none

end Sha1
end Hiaux
