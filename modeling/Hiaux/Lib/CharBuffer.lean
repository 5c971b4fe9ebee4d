import Hiaux.Lib.Bytes

/-!
# `Lib.CharBuffer` — character arrays

A `char` array of fixed size that is filled with zeros, written through a pointer and read back as a C string.
Whether everything stayed inside the array is recorded: a write outside leaves it unchanged, and a string
without a NUL in the array is read beyond its end. While a NUL-free text of less than the array's size is
written, the array holds that text and zeros behind it (`Holds`), whatever was in it before it was cleared.
-/

namespace Lib

/-- A character array and a pointer into it. -/
structure CharBuffer where
  bytes : Bytes
  pos : Nat
  inside : Bool
deriving DecidableEq, Repr

namespace CharBuffer

/-- An array of `n` zeros, with the pointer at its beginning. -/
def zeroed (n : Nat) : CharBuffer := ⟨List.replicate n 0, 0, true⟩

/-- `*(p++) = b`. -/
def write (buf : CharBuffer) (b : UInt8) : CharBuffer :=
  ⟨buf.bytes.set buf.pos b, buf.pos + 1, buf.inside && decide (buf.pos < buf.bytes.length)⟩

/-- Writing some bytes. -/
def writeAll (buf : CharBuffer) (bs : Bytes) : CharBuffer := bs.foldl write buf

/-- `memset(buf, 0, n)`, and the pointer back to the beginning. -/
def clear (buf : CharBuffer) (n : Nat) : CharBuffer :=
  ⟨List.replicate n 0 ++ buf.bytes.drop n, 0, buf.inside && decide (n ≤ buf.bytes.length)⟩

/-- The array read as a C string. -/
def text (buf : CharBuffer) : Bytes := cStr buf.bytes

/-- The array after it has been read as a C string. -/
def read (buf : CharBuffer) : CharBuffer := { buf with inside := buf.inside && buf.bytes.contains 0 }

/-- What has been written since the array was cleared is `w`, and nothing went outside. -/
structure Holds (buf : CharBuffer) (size : Nat) (w : Bytes) : Prop where
  bytes : buf.bytes = w ++ List.replicate (size - w.length) 0
  pos : buf.pos = w.length
  inside : buf.inside = true
  fits : w.length ≤ size

variable {buf : CharBuffer} {size : Nat} {w : Bytes}

theorem holds_zeroed (n : Nat) : (zeroed n).Holds n [] := ⟨by simp [zeroed], rfl, rfl, Nat.zero_le n⟩

@[simp] theorem pos_writeAll (buf : CharBuffer) (bs : Bytes) : (buf.writeAll bs).pos = buf.pos + bs.length := by
  induction bs generalizing buf with
  | nil => rfl
  | cons b bs ih =>
      rw [writeAll, List.foldl_cons, ← writeAll, ih, List.length_cons]
      show buf.pos + 1 + bs.length = _
      omega

theorem Holds.length (h : buf.Holds size w) : buf.bytes.length = size := by
  have hfits := h.fits
  rw [h.bytes, List.length_append, List.length_replicate]
  omega

theorem Holds.write (h : buf.Holds size w) (hlt : w.length < size) (b : UInt8) :
    (buf.write b).Holds size (w ++ [b]) := by
  refine ⟨?_, ?_, ?_, ?_⟩
  · obtain ⟨k, hk⟩ : ∃ k, size - w.length = k + 1 := ⟨size - w.length - 1, by omega⟩
    have hk' : size - (w ++ [b]).length = k := by
      rw [List.length_append, List.length_singleton]
      omega
    show buf.bytes.set buf.pos b = _
    rw [h.bytes, h.pos, hk, hk', List.set_append_right w.length b (Nat.le_refl _), Nat.sub_self,
      List.replicate_succ, List.set_cons_zero, List.append_assoc]
    rfl
  · show buf.pos + 1 = _
    rw [h.pos, List.length_append, List.length_singleton]
  · show (buf.inside && decide (buf.pos < buf.bytes.length)) = true
    rw [h.inside, h.length, h.pos]
    simpa using hlt
  · rw [List.length_append, List.length_singleton]
    omega

/-- **Writing inside the array.** -/
theorem Holds.writeAll (h : buf.Holds size w) {bs : Bytes} (hle : w.length + bs.length ≤ size) :
    (buf.writeAll bs).Holds size (w ++ bs) := by
  induction bs generalizing buf w with
  | nil => rwa [List.append_nil]
  | cons b bs ih =>
      rw [List.length_cons] at hle
      have hnext := ih (h.write (by omega) b) (by rw [List.length_append, List.length_singleton]; omega)
      rwa [List.append_assoc] at hnext

/-- The text is read back up to its first NUL. -/
theorem Holds.text_eq_cStr (h : buf.Holds size w) : buf.text = cStr w := by
  rw [CharBuffer.text, h.bytes]
  by_cases h0 : 0 ∈ w
  · exact cStr_append_of_mem h0 _
  · have hzeros : cStr (List.replicate (size - w.length) 0) = [] := by
      cases size - w.length <;> simp [cStr, List.replicate_succ]
    rw [cStr_append_of_not_mem _ h0, hzeros, List.append_nil, cStr_eq_self_iff.mpr h0]

theorem Holds.text (h : buf.Holds size w) (h0 : 0 ∉ w) : buf.text = w :=
  h.text_eq_cStr.trans (cStr_eq_self_iff.mpr h0)

theorem Holds.read (h : buf.Holds size w) (hlt : w.length < size) : buf.read.Holds size w := by
  refine ⟨h.bytes, h.pos, ?_, h.fits⟩
  obtain ⟨k, hk⟩ : ∃ k, size - w.length = k + 1 := ⟨size - w.length - 1, by omega⟩
  show (buf.inside && buf.bytes.contains 0) = true
  rw [h.inside, h.bytes, hk]
  simp [List.replicate_succ]

/-- Clearing all but the last byte of the array, which no text reaches, clears all of it. -/
theorem Holds.clear (h : buf.Holds (size + 1) w) (hle : w.length ≤ size) :
    (buf.clear size).Holds (size + 1) [] := by
  refine ⟨?_, rfl, ?_, Nat.zero_le _⟩
  · show List.replicate size 0 ++ buf.bytes.drop size = _
    have hlast : buf.bytes.drop size = [0] := by
      have hsub : size + 1 - w.length - (size - w.length) = 1 := by omega
      rw [h.bytes, List.drop_append, List.drop_eq_nil_of_le hle, List.nil_append, List.drop_replicate, hsub]
      rfl
    rw [hlast, List.nil_append, List.length_nil, Nat.sub_zero, List.replicate_succ']
  · show (buf.inside && decide (size ≤ buf.bytes.length)) = true
    rw [h.inside, h.length]
    simp

end CharBuffer

end Lib
