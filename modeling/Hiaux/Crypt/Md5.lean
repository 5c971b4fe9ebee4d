import Hiaux.Lib.Bytes

/-!
# `Crypt.Md5` — the vendored MD5

A context takes a message in pieces (`md5Update`) and keeps the bytes that do not fill a block in its buffer.
Whatever would read or write outside an array is `none`.
-/

namespace Hiaux
namespace Md5

open Lib

/-! ## The basic functions -/

/-- The macros `F`, `G`, `H`, `H2` and `I`. -/
inductive Fn where
  | F | G | H | H2 | I
deriving DecidableEq, Repr

def Fn.apply (x y z : UInt32) : Fn → UInt32
  | .F => z ^^^ (x &&& (y ^^^ z))
  | .G => y ^^^ (z &&& (x ^^^ y))
  | .H => (x ^^^ y) ^^^ z
  | .H2 => x ^^^ (y ^^^ z)
  | .I => y ^^^ (x ||| ~~~ z)

/-- `STEP`: the value that `a` takes on. -/
def step (f : Fn) (a b c d x t s : UInt32) : UInt32 :=
  let a := a + (f.apply b c d + x + t)
  let a := (a <<< s) ||| ((a &&& 0xffffffff) >>> (32 - s))
  a + b

/-- The four words of the state. -/
structure Words where
  a : UInt32
  b : UInt32
  c : UInt32
  d : UInt32
deriving DecidableEq, Repr

/-- The first argument of a `STEP`: the word it assigns to. The others follow in turn. -/
inductive Reg where
  | a | b | c | d
deriving DecidableEq, Repr

/-- A line `STEP(f, reg, ..., SET(n), t, s)`. -/
structure Row where
  f : Fn
  reg : Reg
  n : Nat
  t : UInt32
  s : UInt32
deriving DecidableEq, Repr

/-- The four rounds, sixteen lines each. -/
def rounds : List Row := [
    ⟨.F, .a, 0, 0xd76aa478, 7⟩, ⟨.F, .d, 1, 0xe8c7b756, 12⟩, ⟨.F, .c, 2, 0x242070db, 17⟩, ⟨.F, .b, 3, 0xc1bdceee, 22⟩,
    ⟨.F, .a, 4, 0xf57c0faf, 7⟩, ⟨.F, .d, 5, 0x4787c62a, 12⟩, ⟨.F, .c, 6, 0xa8304613, 17⟩, ⟨.F, .b, 7, 0xfd469501, 22⟩,
    ⟨.F, .a, 8, 0x698098d8, 7⟩, ⟨.F, .d, 9, 0x8b44f7af, 12⟩, ⟨.F, .c, 10, 0xffff5bb1, 17⟩, ⟨.F, .b, 11, 0x895cd7be, 22⟩,
    ⟨.F, .a, 12, 0x6b901122, 7⟩, ⟨.F, .d, 13, 0xfd987193, 12⟩, ⟨.F, .c, 14, 0xa679438e, 17⟩, ⟨.F, .b, 15, 0x49b40821, 22⟩,
    ⟨.G, .a, 1, 0xf61e2562, 5⟩, ⟨.G, .d, 6, 0xc040b340, 9⟩, ⟨.G, .c, 11, 0x265e5a51, 14⟩, ⟨.G, .b, 0, 0xe9b6c7aa, 20⟩,
    ⟨.G, .a, 5, 0xd62f105d, 5⟩, ⟨.G, .d, 10, 0x02441453, 9⟩, ⟨.G, .c, 15, 0xd8a1e681, 14⟩, ⟨.G, .b, 4, 0xe7d3fbc8, 20⟩,
    ⟨.G, .a, 9, 0x21e1cde6, 5⟩, ⟨.G, .d, 14, 0xc33707d6, 9⟩, ⟨.G, .c, 3, 0xf4d50d87, 14⟩, ⟨.G, .b, 8, 0x455a14ed, 20⟩,
    ⟨.G, .a, 13, 0xa9e3e905, 5⟩, ⟨.G, .d, 2, 0xfcefa3f8, 9⟩, ⟨.G, .c, 7, 0x676f02d9, 14⟩, ⟨.G, .b, 12, 0x8d2a4c8a, 20⟩,
    ⟨.H, .a, 5, 0xfffa3942, 4⟩, ⟨.H2, .d, 8, 0x8771f681, 11⟩, ⟨.H, .c, 11, 0x6d9d6122, 16⟩, ⟨.H2, .b, 14, 0xfde5380c, 23⟩,
    ⟨.H, .a, 1, 0xa4beea44, 4⟩, ⟨.H2, .d, 4, 0x4bdecfa9, 11⟩, ⟨.H, .c, 7, 0xf6bb4b60, 16⟩, ⟨.H2, .b, 10, 0xbebfbc70, 23⟩,
    ⟨.H, .a, 13, 0x289b7ec6, 4⟩, ⟨.H2, .d, 0, 0xeaa127fa, 11⟩, ⟨.H, .c, 3, 0xd4ef3085, 16⟩, ⟨.H2, .b, 6, 0x04881d05, 23⟩,
    ⟨.H, .a, 9, 0xd9d4d039, 4⟩, ⟨.H2, .d, 12, 0xe6db99e5, 11⟩, ⟨.H, .c, 15, 0x1fa27cf8, 16⟩, ⟨.H2, .b, 2, 0xc4ac5665, 23⟩,
    ⟨.I, .a, 0, 0xf4292244, 6⟩, ⟨.I, .d, 7, 0x432aff97, 10⟩, ⟨.I, .c, 14, 0xab9423a7, 15⟩, ⟨.I, .b, 5, 0xfc93a039, 21⟩,
    ⟨.I, .a, 12, 0x655b59c3, 6⟩, ⟨.I, .d, 3, 0x8f0ccc92, 10⟩, ⟨.I, .c, 10, 0xffeff47d, 15⟩, ⟨.I, .b, 1, 0x85845dd1, 21⟩,
    ⟨.I, .a, 8, 0x6fa87e4f, 6⟩, ⟨.I, .d, 15, 0xfe2ce6e0, 10⟩, ⟨.I, .c, 6, 0xa3014314, 15⟩, ⟨.I, .b, 13, 0x4e0811a1, 21⟩,
    ⟨.I, .a, 4, 0xf7537e82, 6⟩, ⟨.I, .d, 11, 0xbd3af235, 10⟩, ⟨.I, .c, 2, 0x2ad7d2bb, 15⟩, ⟨.I, .b, 9, 0xeb86d391, 21⟩]

/-- `SET(n)`: four bytes of the input, in little-endian order. -/
def setWord (ptr : Bytes) (n : Nat) : UInt32 :=
  let byte (k : Nat) : UInt32 := (ptr.getD (4 * n + k) 0).toUInt32
  byte 0 ||| (byte 1 <<< 8) ||| (byte 2 <<< 16) ||| (byte 3 <<< 24)

/-- One line of the rounds. -/
def Words.row (ptr : Bytes) (w : Words) (row : Row) : Words :=
  let x := setWord ptr row.n
  match row.reg with
  | .a => { w with a := step row.f w.a w.b w.c w.d x row.t row.s }
  | .d => { w with d := step row.f w.d w.a w.b w.c x row.t row.s }
  | .c => { w with c := step row.f w.c w.d w.a w.b x row.t row.s }
  | .b => { w with b := step row.f w.b w.c w.d w.a x row.t row.s }

/-- The loop of `body`, for the block at `ptr`. -/
def bodyBlock (saved : Words) (ptr : Bytes) : Words :=
  let w := rounds.foldl (Words.row ptr) saved
  ⟨w.a + saved.a, w.b + saved.b, w.c + saved.c, w.d + saved.d⟩

/-- `body`: the words, and the pointer behind the blocks. The loop ends when `size` comes to zero. -/
def body (w : Words) (data : Bytes) (size : UInt64) : Option (Words × Bytes) :=
  if data.length < 64 then none
  else
    let w := bodyBlock w (data.take 64)
    let data := data.drop 64
    if size - 64 = 0 then some (w, data) else body w data (size - 64)
termination_by data.length
decreasing_by
  rw [List.length_drop]
  omega

/-! ## The context -/

/-- `MD5_CTX`. -/
structure Md5Ctx where
  lo : UInt32
  hi : UInt32
  words : Words
  buffer : Vector UInt8 64
deriving DecidableEq

/-- `memcpy(&buffer[pos], data, n)`. -/
def memcpy (buffer : Vector UInt8 64) (pos : Nat) (data : Bytes) (n : Nat) : Option (Vector UInt8 64) :=
  if h : pos + n ≤ 64 ∧ n ≤ data.length then
    some ⟨(buffer.toList.take pos ++ data.take n ++ buffer.toList.drop (pos + n)).toArray, by
      simp only [List.size_toArray, List.length_append, List.length_take, List.length_drop, Vector.length_toList]
      omega⟩
  else none

/-- `memset(&buffer[pos], c, n)`. -/
def memset (buffer : Vector UInt8 64) (pos : Nat) (c : UInt8) (n : Nat) : Option (Vector UInt8 64) :=
  memcpy buffer pos (List.replicate n c) n

/-- `body(ctx, ctx->buffer, 64)`. -/
def Md5Ctx.bodyBuffer (ctx : Md5Ctx) : Option Md5Ctx :=
  (body ctx.words ctx.buffer.toList 64).map (fun r => { ctx with words := r.1 })

/-- `MD5_Init`, which leaves the buffer as it is. -/
def md5Init (ctx : Md5Ctx) : Md5Ctx :=
  { ctx with words := ⟨0x67452301, 0xefcdab89, 0x98badcfe, 0x10325476⟩, lo := 0, hi := 0 }

/-- The bytes `MD5_Update` has counted: `lo` is their number modulo `2 ^ 29`. -/
def Md5Ctx.count (ctx : Md5Ctx) (size : UInt64) : Md5Ctx :=
  let lo := ((ctx.lo.toUInt64 + size) &&& 0x1fffffff).toUInt32
  let hi := if lo < ctx.lo then ctx.hi + 1 else ctx.hi
  { ctx with lo := lo, hi := hi + (size >>> 29).toUInt32 }

/-- The end of `MD5_Update`, with nothing in the buffer: whole blocks are read where they stand, and the rest is
    kept. -/
def Md5Ctx.updateBlocks (ctx : Md5Ctx) (data : Bytes) (size : UInt64) : Option Md5Ctx := do
  let (ctx, data, size) ←
    if 64 ≤ size then
      (body ctx.words data (size &&& ~~~ 0x3f)).map
        (fun r => (({ ctx with words := r.1 } : Md5Ctx), r.2, size &&& 0x3f))
    else some (ctx, data, size)
  let buffer ← memcpy ctx.buffer 0 data size.toNat
  return { ctx with buffer := buffer }

/-- `MD5_Update`. -/
def md5Update (ctx : Md5Ctx) (data : Bytes) (size : UInt64) : Option Md5Ctx :=
  let used := (ctx.lo &&& 0x3f).toNat
  let ctx := ctx.count size
  if used ≠ 0 then
    let available := 64 - used
    if size.toNat < available then
      (memcpy ctx.buffer used data size.toNat).map (fun buffer => { ctx with buffer := buffer })
    else do
      let buffer ← memcpy ctx.buffer used data available
      let ctx ← ({ ctx with buffer := buffer } : Md5Ctx).bodyBuffer
      ctx.updateBlocks (data.drop available) (size - UInt64.ofNat available)
  else ctx.updateBlocks data size

/-- The bytes of a word, in little-endian order. -/
def bytesOf (x : UInt32) : Bytes := [x.toUInt8, (x >>> 8).toUInt8, (x >>> 16).toUInt8, (x >>> 24).toUInt8]

/-- `result`. -/
def Words.result (w : Words) : Bytes := bytesOf w.a ++ bytesOf w.b ++ bytesOf w.c ++ bytesOf w.d

/-- The context after `memset(ctx, 0, sizeof(*ctx))`. -/
def Md5Ctx.cleared : Md5Ctx := ⟨0, 0, ⟨0, 0, 0, 0⟩, Vector.replicate 64 0⟩

/-- `MD5_Final`: the digest, and the context as it leaves it. -/
def md5Final (ctx : Md5Ctx) : Option (Bytes × Md5Ctx) := do
  let used := (ctx.lo &&& 0x3f).toNat
  let buffer ← memcpy ctx.buffer used [0x80] 1
  let used := used + 1
  let available := 64 - used
  let (ctx, used, available) ←
    if available < 8 then do
      let buffer ← memset buffer used 0 available
      let ctx ← ({ ctx with buffer := buffer } : Md5Ctx).bodyBuffer
      pure (ctx, 0, 64)
    else pure (({ ctx with buffer := buffer } : Md5Ctx), used, available)
  let buffer ← memset ctx.buffer used 0 (available - 8)
  let buffer ← memcpy buffer 56 (bytesOf (ctx.lo <<< 3) ++ bytesOf ctx.hi) 8
  let ctx ← ({ ctx with buffer := buffer } : Md5Ctx).bodyBuffer
  return (ctx.words.result, Md5Ctx.cleared)

end Md5
end Hiaux
