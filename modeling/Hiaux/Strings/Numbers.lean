import Hiaux.Lib.Bytes

/-!
# `Strings.Numbers` — `string_to_uint64`

`string_to_uint64` is `sscanf` with `%llu` into an uninitialised local. `sscanf` skips blanks, takes an
optional sign and as many digits as follow, ignores the rest, and leaves its target alone when there is no
digit. That last case is modelled by a parameter: the value the local happens to hold.
-/

namespace Hiaux
namespace Strings

open Lib

/-- The white space `sscanf` skips. -/
def isSpace (b : UInt8) : Bool := b == 32 || (9 ≤ b && b ≤ 13)

/-- An optional sign: whether it was a minus, and what follows. -/
def scanSign : Bytes → Bool × Bytes
  | [] => (false, [])
  | b :: s => if b == 45 then (true, s) else if b == 43 then (false, s) else (false, b :: s)

/-- The 64-bit value of a scanned number: out of range saturates, a minus negates modulo `2 ^ 64`. -/
def clampU64 (neg : Bool) (n : Nat) : Nat :=
  if 2 ^ 64 ≤ n then 2 ^ 64 - 1 else if neg then (2 ^ 64 - n) % 2 ^ 64 else n

/-- `sscanf(s.c_str(), "%llu", …)`: the value stored, `none` when nothing is stored. -/
def scanU64 (s : Bytes) : Option Nat :=
  let r := scanSign ((cStr s).dropWhile isSpace)
  let ds := r.2.takeWhile isDigit
  if ds = [] then none else some (clampU64 r.1 (digitsValue ds))

/-- What an uninitialised local holds, by the bytes a parser still has buffered when it reads it. The buffer
    shrinks from one size line to the next, so every read is free to find something else. -/
abbrev Junk := Bytes → Nat

/-- A receive event of a parser: the bytes that arrived, and what the uninitialised local holds meanwhile. -/
structure Chunk where
  bytes : Bytes
  junk : Junk

/-- `string_to_uint64`; `junk` is what the uninitialised local holds before the scan. -/
def stringToUint64 (junk : Nat) (s : Bytes) : Nat := (scanU64 s).getD junk

theorem isSpace_of_isDigit {b : UInt8} (h : isDigit b = true) :
    isSpace b = false ∧ (b == 45) = false ∧ (b == 43) = false ∧ (b != 0) = true := by
  have hb : 48 ≤ b.toNat ∧ b.toNat ≤ 57 := by
    simpa [isDigit, UInt8.le_iff_toNat_le] using h
  simp only [isSpace, Bool.or_eq_false_iff, Bool.and_eq_false_iff, beq_eq_false_iff_ne, bne_iff_ne, ne_eq,
    decide_eq_false_iff_not, UInt8.le_iff_toNat_le, ← UInt8.toNat_inj]
  refine ⟨⟨?_, Or.inr ?_⟩, ?_, ?_, ?_⟩ <;> (simp; omega)

/-- Digits are neither skipped as blanks nor cut off by the C string conversion. -/
theorem dropWhile_isSpace_digits {s : Bytes} (h : ∀ b ∈ s, isDigit b = true) :
    (cStr s).dropWhile isSpace = s := by
  have hc : cStr s = s :=
    List.takeWhile_eq_self_iff.mpr (fun b hb => (isSpace_of_isDigit (h b hb)).2.2.2)
  rw [hc]
  cases s with
  | nil => rfl
  | cons b t => simp [(isSpace_of_isDigit (h b (by simp))).1]

theorem scanSign_digits {s : Bytes} (h : ∀ b ∈ s, isDigit b = true) : scanSign s = (false, s) := by
  cases s with
  | nil => rfl
  | cons b t =>
      obtain ⟨_, hminus, hplus, _⟩ := isSpace_of_isDigit (h b (by simp))
      simp [scanSign, hminus, hplus]

/-- **A non-empty string of digits is read as the number it denotes.** -/
theorem scanU64_digits {s : Bytes} (hne : s ≠ []) (h : ∀ b ∈ s, isDigit b = true) :
    scanU64 s = some (clampU64 false (digitsValue s)) := by
  have htake : s.takeWhile isDigit = s := List.takeWhile_eq_self_iff.mpr h
  simp [scanU64, dropWhile_isSpace_digits h, scanSign_digits h, htake, hne]

/-- The text a stream writes for a 64-bit number is read back as that number. -/
theorem scanU64_decimal {n : Nat} (h : n < 2 ^ 64) : scanU64 (decimal n) = some n := by
  rw [scanU64_digits (decimal_ne_nil n) (fun b hb => decimal_isDigit hb), digitsValue_decimal, clampU64,
    if_neg (Nat.not_le.mpr h)]
  rfl

/-! ## What a scan reads -/

/-- A text as a scan of `%llu` takes it: blanks, an optional sign, digits, and a rest that does not go on
    with a digit. -/
def HoldsNumber (s : Bytes) (neg : Bool) (digits : Bytes) : Prop :=
  ∃ blanks sign rest, s = blanks ++ (sign ++ (digits ++ rest)) ∧
    (∀ b ∈ blanks, isSpace b = true) ∧
    (sign = (if neg then [45] else []) ∨ neg = false ∧ sign = [43]) ∧
    digits ≠ [] ∧ (∀ b ∈ digits, isDigit b = true) ∧
    ∀ b, rest.head? = some b → isDigit b = false

/-- A non-empty string of digits. -/
def IsNumeral (s : Bytes) : Prop := s ≠ [] ∧ ∀ b ∈ s, isDigit b = true

instance (s : Bytes) : Decidable (IsNumeral s) :=
  decidable_of_iff (s ≠ [] ∧ s.all isDigit = true) (and_congr_right fun _ => List.all_eq_true)

theorem IsNumeral.holdsNumber {s : Bytes} (h : IsNumeral s) : HoldsNumber s false s :=
  ⟨[], [], [], by simp, by simp, by simp, h.1, h.2, by simp⟩

theorem head_dropWhile {p : UInt8 → Bool} {s : Bytes} {b : UInt8} (h : (s.dropWhile p).head? = some b) :
    p b = false := by
  have hnot := List.head?_dropWhile_not p s
  rw [h] at hnot
  exact hnot

/-- The sign a text starts with, if it does, and what follows. -/
theorem scanSign_split (s : Bytes) :
    ∃ sign, s = sign ++ (scanSign s).2 ∧
      (sign = (if (scanSign s).1 then [45] else []) ∨ (scanSign s).1 = false ∧ sign = [43]) := by
  cases s with
  | nil => exact ⟨[], rfl, Or.inl rfl⟩
  | cons b s =>
      unfold scanSign
      by_cases hminus : b = 45
      · exact ⟨[45], by simp [hminus], Or.inl (by simp [hminus])⟩
      · by_cases hplus : b = 43
        · exact ⟨[43], by simp [hplus], Or.inr (by simp [hplus])⟩
        · exact ⟨[], by simp [hminus, hplus], Or.inl (by simp [hminus, hplus])⟩

/-- A scan that is given a text of this form takes its sign and its digits. -/
theorem HoldsNumber.scanU64 {s digits : Bytes} {neg : Bool} (h : HoldsNumber s neg digits) :
    scanU64 s = some (clampU64 neg (digitsValue digits)) := by
  obtain ⟨blanks, sign, rest, rfl, hblanks, hsign, hne, hdigits, hrest⟩ := h
  have hzero : ∀ t : Bytes, (∀ b ∈ t, isSpace b = true ∨ isDigit b = true ∨ b = 45 ∨ b = 43) → 0 ∉ t := by
    intro t ht h0
    rcases ht 0 h0 with h | h | h | h <;> exact absurd h (by decide)
  have hsigned : ∀ b ∈ sign, b = 45 ∨ b = 43 := by
    intro b hb
    rcases hsign with rfl | ⟨-, rfl⟩
    · split at hb
      · exact Or.inl (List.mem_singleton.mp hb)
      · exact absurd hb (by simp)
    · exact Or.inr (List.mem_singleton.mp hb)
  -- no NUL before the rest
  have hc : cStr (blanks ++ (sign ++ (digits ++ rest))) = blanks ++ (sign ++ (digits ++ cStr rest)) := by
    rw [cStr_append_of_not_mem _ (hzero blanks fun b hb => Or.inl (hblanks b hb)),
      cStr_append_of_not_mem _ (hzero sign fun b hb => Or.inr (Or.inr (hsigned b hb))),
      cStr_append_of_not_mem _ (hzero digits fun b hb => Or.inr (Or.inl (hdigits b hb)))]
  -- the first digit
  obtain ⟨d, ds, rfl⟩ := List.exists_cons_of_ne_nil hne
  obtain ⟨hspace, hminus, hplus, -⟩ := isSpace_of_isDigit (hdigits d List.mem_cons_self)
  have hscan : scanSign ((blanks ++ (sign ++ (d :: ds ++ cStr rest))).dropWhile isSpace) =
      (neg, d :: ds ++ cStr rest) := by
    rw [List.dropWhile_append_of_pos hblanks]
    rcases hsign with rfl | ⟨rfl, rfl⟩
    · cases neg with
      | true => rfl
      | false =>
          show scanSign (List.dropWhile isSpace (d :: (ds ++ cStr rest))) = _
          rw [List.dropWhile_cons_of_neg (by simp [hspace])]
          simp [scanSign, hminus, hplus]
    · rfl
  have htake : (d :: ds ++ cStr rest).takeWhile isDigit = d :: ds := by
    rw [List.takeWhile_append_of_pos hdigits]
    have hrest' : (cStr rest).takeWhile isDigit = [] := by
      cases rest with
      | nil => rfl
      | cons b rest =>
          have hb := hrest b rfl
          unfold cStr
          rw [List.takeWhile_cons]
          split
          · exact List.takeWhile_cons_of_neg (by simp [hb])
          · rfl
    rw [hrest', List.append_nil]
  rw [Strings.scanU64, hc]
  simp only [hscan, htake, if_neg hne]

/-- **What `%llu` reads**: exactly the texts that are blanks, an optional sign, digits and a rest. -/
theorem scanU64_eq_some_iff {s : Bytes} {n : Nat} :
    scanU64 s = some n ↔ ∃ neg digits, HoldsNumber s neg digits ∧ n = clampU64 neg (digitsValue digits) := by
  constructor
  · intro h
    have hcut : s = cStr s ++ s.dropWhile (· != 0) := (List.takeWhile_append_dropWhile).symm
    obtain ⟨sign, hsplit, hsign⟩ := scanSign_split ((cStr s).dropWhile isSpace)
    rw [scanU64] at h
    set r := scanSign ((cStr s).dropWhile isSpace) with hr
    by_cases hds : r.2.takeWhile isDigit = []
    · rw [if_pos hds] at h
      exact absurd h (by simp)
    · rw [if_neg hds] at h
      refine ⟨r.1, r.2.takeWhile isDigit, ⟨(cStr s).takeWhile isSpace, sign,
        r.2.dropWhile isDigit ++ s.dropWhile (· != 0), ?_, ?_, hsign, hds, ?_, ?_⟩,
        (Option.some.inj h).symm⟩
      · calc s = cStr s ++ s.dropWhile (· != 0) := hcut
          _ = ((cStr s).takeWhile isSpace ++ (sign ++ r.2)) ++ s.dropWhile (· != 0) := by
              rw [← hsplit, List.takeWhile_append_dropWhile]
          _ = _ := by
              conv_lhs => rw [← List.takeWhile_append_dropWhile (p := isDigit) (l := r.2)]
              simp only [List.append_assoc]
      · exact fun b hb => List.mem_takeWhile_imp hb
      · exact fun b hb => List.mem_takeWhile_imp hb
      · intro b hb
        cases hrest : r.2.dropWhile isDigit with
        | nil =>
            rw [hrest, List.nil_append] at hb
            have hzero : b = 0 := by simpa using head_dropWhile hb
            rw [hzero]
            decide
        | cons c t =>
            have hhead : (r.2.dropWhile isDigit).head? = some b := by
              rw [hrest] at hb ⊢
              exact hb
            exact head_dropWhile hhead
  · rintro ⟨neg, digits, hs, rfl⟩
    exact hs.scanU64

end Strings
end Hiaux
