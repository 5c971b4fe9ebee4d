import Mathlib.Data.BitVec

/-!
# `Events.Masks` — which events a mask asks for

The masks of `EventWatcherEpoll` and `EventWatcherKqueue`, the same macros in both headers, and the set of
read and write events that a mask, or the kernel, has for a descriptor.
-/

namespace Hiaux
namespace Events

/-- `uint32_t`. -/
abbrev Mask := BitVec 32

/-- `HI_ACCEPT`. -/
def hiAccept : Mask := 1#32 <<< 0

/-- `HI_READ`. -/
def hiRead : Mask := 1#32 <<< 2

/-- `HI_WRITE`. -/
def hiWrite : Mask := 1#32 <<< 3

/-- `mask & bit`, as a condition. -/
def has (mask bit : Mask) : Bool := mask &&& bit ≠ 0#32

/-- The read and write events enabled for a descriptor. -/
structure Interest where
  read : Bool
  write : Bool
deriving DecidableEq, Repr

/-- What an entry of `m_sockets_masks` asks for; nothing, if there is none. -/
def Interest.ofEntry (entry : Option Mask) : Interest :=
  ⟨entry.any (has · hiRead), entry.any (has · hiWrite)⟩

/-! ## Bits -/

/-- A mask of one bit tests that bit. -/
theorem has_bit (mask : Mask) {i : Nat} (hi : i < 32) : has mask (1#32 <<< i) = mask.getLsbD i := by
  have hne : BitVec.twoPow 32 i ≠ 0#32 := by
    intro hzero
    have hval := BitVec.toNat_twoPow_of_lt hi
    rw [hzero] at hval
    exact absurd hval (Nat.ne_of_lt (Nat.two_pow_pos i))
  rw [has, ← BitVec.twoPow_eq, BitVec.and_twoPow]
  cases mask.getLsbD i with
  | false => simp
  | true => simpa using hne

theorem has_read (mask : Mask) : has mask hiRead = mask.getLsbD 2 := has_bit mask (by decide)

theorem has_write (mask : Mask) : has mask hiWrite = mask.getLsbD 3 := has_bit mask (by decide)

end Events
end Hiaux
