import Hiaux.HttpApi.HttpApi

/-!
# `Crypt.Correctness.Digests` — digests as strings

`sha1::calc` reads the digest back as a C string out of a larger array: it ends at the first NUL of the digest, or
goes on behind it. `sha1::toHex` takes twenty bytes of what is left, the last of which may be the NUL that ends it.
-/

namespace Hiaux
namespace Sha1

open Lib

variable {digest unset : Bytes}

theorem length_calcHash (src : Bytes) (bytelength : Int) : (calcHash src bytelength).length = 20 := by
  simp [calcHash, storeHash]

/-- **When exactly the digest is read back**: if it has no NUL, and the byte behind it is one. -/
theorem cStr_array_iff (digest unset : Bytes) :
    (0 ∈ digest ++ unset ∧ cStr (digest ++ unset) = digest) ↔ 0 ∉ digest ∧ unset.head? = some 0 := by
  constructor
  · rintro ⟨hnul, hcut⟩
    have hdigest : 0 ∉ digest := hcut ▸ zero_not_mem_cStr (digest ++ unset)
    rw [cStr_append_of_not_mem _ hdigest, List.append_right_eq_self] at hcut
    refine ⟨hdigest, ?_⟩
    cases unset with
    | nil => exact absurd hnul (by simpa using hdigest)
    | cons b unset =>
        have hstop := List.takeWhile_eq_nil_iff.mp hcut (Nat.succ_pos _)
        simpa using hstop
  · rintro ⟨hdigest, hhead⟩
    obtain ⟨unset, rfl⟩ := List.head?_eq_some_iff.mp hhead
    refine ⟨by simp, ?_⟩
    rw [cStr_append_zero, cStr_eq_self_iff.mpr hdigest]

/-! ## Hexadecimal strings -/

/-- A string of fewer than nineteen bytes is read past its end. -/
theorem toHex_of_short {s : Bytes} (h : s.length < 19) : toHex s = none := by
  rw [toHex, if_neg]
  rw [List.length_append, List.length_singleton]
  omega

/-- Of nineteen bytes, the NUL behind them is read too. -/
theorem toHex_of_nineteen {s : Bytes} (h : s.length = 19) : toHex s = some (toHexString (s ++ [0])) := by
  rw [toHex, if_pos]
  rw [List.length_append, List.length_singleton, h]

/-- What stands behind twenty bytes does not matter. -/
theorem toHex_append (h : digest.length = 20) (s : Bytes) : toHex (digest ++ s) = some (toHexString digest) := by
  have hroom : 20 ≤ (digest ++ s ++ [0]).length := by
    rw [List.length_append, List.length_append, h]
    omega
  rw [toHex, if_pos hroom, List.append_assoc, toHexString, toHexString,
    List.take_append_of_le_length (Nat.le_of_eq h.symm)]

/-- **When the hexadecimal string is that of the digest**: if its first nineteen bytes have no NUL, and there is one
    behind them. -/
theorem toHex_array_iff (hlength : digest.length = 20) (unset : Bytes) :
    ((if 0 ∈ digest ++ unset then some (cStr (digest ++ unset)) else none).bind toHex = some (toHexString digest)) ↔
      0 ∉ digest.take 19 ∧ 0 ∈ digest.drop 19 ++ unset := by
  obtain ⟨last, hlast⟩ : ∃ last, digest.drop 19 = [last] :=
    List.length_eq_one_iff.mp (by rw [List.length_drop, hlength])
  have hdigest : digest.take 19 ++ [last] = digest := by rw [← hlast, List.take_append_drop]
  have hnineteen : (digest.take 19).length = 19 := by rw [List.length_take, hlength]; rfl
  have harray : digest ++ unset = digest.take 19 ++ (digest.drop 19 ++ unset) := by
    rw [← List.append_assoc, List.take_append_drop]
  rw [harray]
  by_cases hfront : 0 ∈ digest.take 19
  · have hle := cStr_length_le (digest.take 19)
    have hne := mt length_cStr_eq_iff.mp (not_not_intro hfront)
    rw [if_pos (List.mem_append_left _ hfront), cStr_append_of_mem hfront, Option.bind_some, toHex_of_short (by omega)]
    simp [hfront]
  · rw [and_iff_right hfront]
    by_cases hbehind : 0 ∈ digest.drop 19 ++ unset
    · rw [if_pos (List.mem_append_right _ hbehind), cStr_append_of_not_mem _ hfront, Option.bind_some]
      refine iff_of_true ?_ hbehind
      rw [hlast, List.singleton_append, cStr_cons]
      -- The last byte of the digest may be the NUL that ends the string.
      by_cases h0 : last = 0
      · rw [if_pos h0, List.append_nil, toHex_of_nineteen hnineteen, ← h0, hdigest]
      · rw [if_neg h0, List.append_cons, hdigest, toHex_append hlength]
    · rw [if_neg fun h => (List.mem_append.mp h).elim hfront hbehind]
      exact iff_of_false (by simp) hbehind

/-- `size()` as an `int`. -/
theorem toInt_eq_bmod (n : Nat) : HttpServer.HttpConnection.toInt n = Int.bmod n (2 ^ 32) := by
  rw [HttpServer.HttpConnection.toInt, Int.bmod]
  split <;> omega

/-- **`sha1::calc` and `sha1::toHex`**: when they agree with the digest and with what the API signs by. -/
theorem calcString_iff (src : Bytes) (unset : Vector UInt8 20) :
    (calcString src unset = some (calcBytes src) ↔ 0 ∉ calcBytes src ∧ unset[0] = 0) ∧
      ((calcString src unset).bind toHex = some (toHexString (calcBytes src)) ↔
        0 ∉ (calcBytes src).take 19 ∧ 0 ∈ (calcBytes src).drop 19 ++ unset.toList) ∧
      ∀ method ts key, HttpApi.Api.signHex method ts key = toHexString (calcBytes (method ++ ts ++ key)) := by
  refine ⟨?_, toHex_array_iff (length_calcHash src _) unset.toList, fun method ts key => ?_⟩
  · have hhead : unset.toList.head? = some 0 ↔ unset[0] = 0 := by
      rw [List.head?_eq_getElem?, Vector.getElem?_toList, Vector.getElem?_eq_getElem (by decide), Option.some_inj]
    rw [calcString, ← hhead, ← cStr_array_iff]
    split
    · rename_i hnul
      rw [Option.some_inj, and_iff_right hnul]
    · rename_i hnul
      simp [hnul]
  · rw [HttpApi.Api.signHex, calcBytes, ← toInt_eq_bmod]

/-- **A digest with a NUL**: that of `z` has one as its seventh byte, and six bytes are left. -/
theorem calcString_z :
    calcString (ascii "z") (Vector.replicate 20 0) = some [0x39, 0x5d, 0xf8, 0xf7, 0xc5, 0x1f] ∧
      calcString (ascii "z") (Vector.replicate 20 0) ≠ some (calcBytes (ascii "z")) ∧
      (calcString (ascii "z") (Vector.replicate 20 0)).bind toHex = none := by
  decide +kernel

end Sha1
end Hiaux
