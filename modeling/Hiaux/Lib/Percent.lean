import Hiaux.Lib.Bytes

/-!
# `Lib.Percent` — percent encoding and decoding

`percentDecode` replaces every `%` with two hexadecimal digits behind it by the byte they denote and leaves
all other bytes alone. It shortens a text exactly where it replaces something, so a text that it does not
shorten is its own decoding (`escapeFree_of_length`, `percentDecode_of_escapeFree`). A separator that a
decoding brings in has cost three bytes (`weight_percentDecode_le`). `percentEncode` writes an escape for every
byte that is not plain, and decoding takes it back (`percentDecode_percentEncode`).
-/

namespace Lib

/-- The value of a hexadecimal digit. -/
def hexValue (b : UInt8) : Option UInt8 :=
  if 48 ≤ b && b ≤ 57 then some (b - 48)
  else if 65 ≤ b && b ≤ 70 then some (b - 55)
  else if 97 ≤ b && b ≤ 102 then some (b - 87)
  else none

/-- The byte three characters stand for, if they are an escape. -/
def escapedByte (a h l : UInt8) : Option UInt8 :=
  if a = 37 then (hexValue h).bind (fun x => (hexValue l).map (fun y => 16 * x + y)) else none

/-- Percent decoding. -/
def percentDecode : Bytes → Bytes
  | a :: h :: l :: s =>
      match escapedByte a h l with
      | some b => b :: percentDecode s
      | none => a :: percentDecode (h :: l :: s)
  | s => s

/-- A text without escapes. -/
def escapeFree : Bytes → Bool
  | a :: h :: l :: s => (escapedByte a h l).isNone && escapeFree (h :: l :: s)
  | _ => true

theorem percentDecode_escape {a h l b : UInt8} (s : Bytes) (he : escapedByte a h l = some b) :
    percentDecode (a :: h :: l :: s) = b :: percentDecode s := by
  rw [percentDecode, he]

theorem percentDecode_plain {a h l : UInt8} (s : Bytes) (he : escapedByte a h l = none) :
    percentDecode (a :: h :: l :: s) = a :: percentDecode (h :: l :: s) := by
  rw [percentDecode, he]

/-! ## Lengths -/

theorem length_percentDecode_le (s : Bytes) : (percentDecode s).length ≤ s.length := by
  induction s using percentDecode.induct with
  | case1 a h l s b he ih =>
      rw [percentDecode_escape s he]
      simp only [List.length_cons]
      omega
  | case2 a h l s he ih =>
      rw [percentDecode_plain s he]
      simp only [List.length_cons] at ih ⊢
      omega
  | case3 s hs =>
      rw [percentDecode]
      exact hs

/-- A text that decoding does not shorten has no escapes. -/
theorem escapeFree_of_length (s : Bytes) : s.length ≤ (percentDecode s).length → escapeFree s = true := by
  induction s using percentDecode.induct with
  | case1 a h l s b he ih =>
      intro hlen
      rw [percentDecode_escape s he] at hlen
      have hle := length_percentDecode_le s
      simp only [List.length_cons] at hlen
      omega
  | case2 a h l s he ih =>
      intro hlen
      rw [percentDecode_plain s he] at hlen
      rw [escapeFree, he]
      exact ih (by simpa using hlen)
  | case3 s hs =>
      intro _
      rw [escapeFree]
      exact hs

theorem percentDecode_of_escapeFree (s : Bytes) : escapeFree s = true → percentDecode s = s := by
  induction s using percentDecode.induct with
  | case1 a h l s b he ih =>
      intro hfree
      rw [escapeFree, he] at hfree
      exact absurd hfree Bool.false_ne_true
  | case2 a h l s he ih =>
      intro hfree
      rw [escapeFree, he] at hfree
      rw [percentDecode_plain s he, ih hfree]
  | case3 s hs =>
      intro _
      rw [percentDecode]
      exact hs

/-- A text without percent signs has no escapes. -/
theorem escapeFree_of_not_mem {s : Bytes} (h : 37 ∉ s) : escapeFree s = true := by
  induction s using escapeFree.induct with
  | case1 a x l s ih =>
      have ha : a ≠ 37 := by
        rintro rfl
        exact h List.mem_cons_self
      have hnone : escapedByte a x l = none := if_neg ha
      rw [escapeFree, hnone, ih (fun hmem => h (List.mem_cons_of_mem _ hmem))]
      rfl
  | case2 s hs =>
      rw [escapeFree]
      exact hs

/-! ## Encoding -/

/-- The hexadecimal digit of a value below 16. -/
def hexDigit (n : UInt8) : UInt8 := if n < 10 then 48 + n else 55 + n

/-- The escape of a byte. -/
def escapeByte (b : UInt8) : Bytes := [37, hexDigit (b / 16), hexDigit (b % 16)]

/-- Percent encoding of the bytes that are not `plain`. -/
def percentEncode (plain : UInt8 → Bool) (s : Bytes) : Bytes :=
  s.flatMap (fun b => if plain b then [b] else escapeByte b)

theorem escapedByte_escapeByte (b : UInt8) :
    escapedByte 37 (hexDigit (b / 16)) (hexDigit (b % 16)) = some b := by
  have hall : ∀ n : Fin 256, escapedByte 37 (hexDigit (UInt8.ofFin n / 16)) (hexDigit (UInt8.ofFin n % 16)) =
      some (UInt8.ofFin n) := by decide +kernel
  exact hall b.toFin

/-- A byte other than `%` starts no escape. -/
theorem percentDecode_cons {a : UInt8} (ha : a ≠ 37) (s : Bytes) :
    percentDecode (a :: s) = a :: percentDecode s := by
  rcases s with - | ⟨h, - | ⟨l, s⟩⟩
  · rfl
  · rfl
  · exact percentDecode_plain s (if_neg ha)

/-- A text without percent signs, with whatever stands behind it. -/
theorem percentDecode_append {s : Bytes} (h : 37 ∉ s) (t : Bytes) : percentDecode (s ++ t) = s ++ percentDecode t := by
  induction s with
  | nil => rfl
  | cons a s ih =>
      obtain ⟨ha, hs⟩ := not_or.mp (fun hmem => h (List.mem_cons.mpr hmem))
      rw [List.cons_append, percentDecode_cons (Ne.symm ha), ih hs, List.cons_append]

/-- Decoding takes an encoding back, whatever stands behind it. -/
theorem percentDecode_percentEncode_append {plain : UInt8 → Bool} (hplain : plain 37 = false) (s t : Bytes) :
    percentDecode (percentEncode plain s ++ t) = s ++ percentDecode t := by
  induction s with
  | nil => rfl
  | cons b s ih =>
      rw [percentEncode, List.flatMap_cons, ← percentEncode]
      by_cases hb : plain b = true
      · have hne : b ≠ 37 := by
          rintro rfl
          exact absurd hb (by simp [hplain])
        rw [if_pos hb, List.singleton_append, List.cons_append, percentDecode_cons hne, ih, List.cons_append]
      · rw [if_neg hb, List.append_assoc]
        exact (percentDecode_escape _ (escapedByte_escapeByte b)).trans (congrArg (b :: ·) ih)

/-- **Decoding takes an encoding back.** -/
theorem percentDecode_percentEncode {plain : UInt8 → Bool} (hplain : plain 37 = false) (s : Bytes) :
    percentDecode (percentEncode plain s) = s := by
  have happ := percentDecode_percentEncode_append hplain s []
  have hnil : percentDecode [] = [] := rfl
  rwa [hnil, List.append_nil, List.append_nil] at happ

/-- What holds of the plain bytes, of `%` and of hexadecimal digits holds of the bytes of an encoding. -/
theorem forall_mem_percentEncode {plain P : UInt8 → Bool} (hplain : ∀ b, plain b = true → P b = true)
    (hpercent : P 37 = true) (hhex : ∀ n : Fin 16, P (hexDigit (UInt8.ofNat n)) = true) {s : Bytes} :
    ∀ b ∈ percentEncode plain s, P b = true := by
  have hdigit : ∀ n : UInt8, n.toNat < 16 → P (hexDigit n) = true := by
    intro n hn
    have hfin := hhex ⟨n.toNat, hn⟩
    rwa [UInt8.ofNat_toNat] at hfin
  intro b hb
  obtain ⟨a, -, hb⟩ := List.mem_flatMap.mp hb
  split at hb
  · rename_i ha
    exact List.mem_singleton.mp hb ▸ hplain a ha
  · have hlt := a.toNat_lt
    simp only [escapeByte, List.mem_cons, List.not_mem_nil, or_false] at hb
    rcases hb with rfl | rfl | rfl
    · exact hpercent
    · exact hdigit _ (by simp only [UInt8.toNat_div, UInt8.reduceToNat]; omega)
    · exact hdigit _ (by simp only [UInt8.toNat_mod, UInt8.reduceToNat]; omega)

/-! ## As C strings -/

theorem escapedByte_ne_zero {a h l b : UInt8} (he : escapedByte a h l = some b) : a = 37 ∧ h ≠ 0 ∧ l ≠ 0 := by
  have hzero : hexValue 0 = none := rfl
  unfold escapedByte at he
  split at he
  · rename_i ha
    obtain ⟨x, hx, hrest⟩ := Option.bind_eq_some_iff.mp he
    obtain ⟨y, hy, -⟩ := Option.map_eq_some_iff.mp hrest
    refine ⟨ha, ?_, ?_⟩
    · rintro rfl
      rw [hzero] at hx
      cases hx
    · rintro rfl
      rw [hzero] at hy
      cases hy
  · cases he

/-- **Whether the last byte of a text matters.** It does not if it stands behind a NUL, or is one. -/
theorem cStr_percentDecode_concat (s : Bytes) (c : UInt8) :
    cStr (percentDecode (s ++ [c])) = cStr (percentDecode s) ↔ 0 ∈ percentDecode s ∨ c = 0 := by
  have hcons : ∀ (b : UInt8) (x y : Bytes) (P : Prop), (cStr x = cStr y ↔ 0 ∈ y ∨ P) →
      (cStr (b :: x) = cStr (b :: y) ↔ 0 ∈ b :: y ∨ P) := by
    intro b x y P ih
    rw [cStr_cons, cStr_cons, List.mem_cons]
    by_cases hb : b = 0
    · simp [hb]
    · rw [if_neg hb, if_neg hb, List.cons.injEq, ih]
      simp [Ne.symm hb]
  have hone : cStr [c] = cStr [] ↔ 0 ∈ ([] : Bytes) ∨ c = 0 := by
    rw [cStr_cons]
    by_cases hc : c = 0 <;> simp [hc, cStr]
  induction s using percentDecode.induct with
  | case1 a h l s b he ih =>
      simp only [List.cons_append]
      rw [percentDecode_escape _ he, percentDecode_escape _ he]
      exact hcons b _ _ _ ih
  | case2 a h l s he ih =>
      simp only [List.cons_append] at ih ⊢
      rw [percentDecode_plain _ he, percentDecode_plain _ he]
      exact hcons a _ _ _ ih
  | case3 s hs =>
      rcases s with - | ⟨a, - | ⟨h, - | ⟨l, s⟩⟩⟩
      · exact hone
      · exact hcons a [c] [] _ hone
      · cases he : escapedByte a h c with
        | none =>
            have hplain : percentDecode ([a, h] ++ [c]) = a :: [h, c] := percentDecode_plain [] he
            rw [hplain]
            exact hcons a [h, c] [h] _ (hcons h [c] [] _ hone)
        | some b =>
            obtain ⟨rfl, hh, hc⟩ := escapedByte_ne_zero he
            have hescape : percentDecode ([37, h] ++ [c]) = [b] := percentDecode_escape [] he
            have hself : percentDecode [37, h] = [37, h] := rfl
            rw [hescape, hself]
            by_cases hb : b = 0 <;> simp [cStr_cons, hb, hh, Ne.symm hh, hc]
      · exact absurd rfl (hs a h l s)

/-! ## Weights -/

/-- The length of a text in which the bytes of a certain kind count three times. -/
def weight (special : UInt8 → Bool) (s : Bytes) : Nat := s.length + 2 * s.countP special

theorem weight_cons_le (special : UInt8 → Bool) (b : UInt8) (s : Bytes) :
    weight special (b :: s) ≤ 3 + weight special s := by
  unfold weight
  rw [List.countP_cons, List.length_cons]
  split <;> omega

theorem weight_percentDecode_le (special : UInt8 → Bool) (s : Bytes) :
    weight special (percentDecode s) ≤ weight special s := by
  induction s using percentDecode.induct with
  | case1 a h l s b he ih =>
      rw [percentDecode_escape s he]
      have hcons := weight_cons_le special b (percentDecode s)
      have hlen : 3 + weight special s ≤ weight special (a :: h :: l :: s) := by
        simp only [weight, List.countP_cons, List.length_cons]
        omega
      omega
  | case2 a h l s he ih =>
      rw [percentDecode_plain s he]
      simp only [weight, List.countP_cons, List.length_cons] at ih ⊢
      omega
  | case3 s hs =>
      rw [percentDecode]
      exact hs

theorem weight_cStr_le (special : UInt8 → Bool) (s : Bytes) : weight special (cStr s) ≤ weight special s := by
  have hsub : (cStr s).Sublist s := (List.takeWhile_prefix _).sublist
  have hlen := hsub.length_le
  have hcount := hsub.countP_le (p := special)
  unfold weight
  omega

end Lib
