import Hiaux.Lib.Bytes

/-!
# `Network.Socket` — what the kernel answers

A call of `send` or `recv` is given its result. Every value of the two types is a possible answer, so a
statement about all of them is a statement about every behaviour of the socket.
-/

namespace Hiaux
namespace Network

open Lib

/-- The result of `::send` on a non-empty buffer. `accepted n` stands for `n + 1` bytes taken, or the whole
    buffer if it is shorter, so every value is a possible result. -/
inductive SendResult where
  | accepted (n : Nat)
  | again
  | fatal
deriving DecidableEq, Repr

/-- One result of `::recv`. -/
inductive RecvResult where
  | data (bytes : Bytes)
  | again
  | interrupted
  | fatal
  | closed
deriving DecidableEq, Repr

/-- How many bytes `::send` takes from a buffer of the given size. -/
def taken (n size : Nat) : Nat := min (n + 1) size

end Network
end Hiaux
