import Mathlib.Data.Nat.Digits.Defs
import Mathlib.Data.Nat.Digits.Lemmas
import Mathlib.Data.List.TakeWhile
import Std.Data.ExtTreeMap

/-!
# `Lib.Bytes` — byte strings and decimal numerals

A `std::string` is a list of 8-bit characters. The two operations every parser needs — `find` for a single
character and `substr` — are given their C++ meaning on lists, and `decimal` is the text an output stream
writes for an unsigned number. The numeral facts come from Mathlib's `Nat.digits`.
-/

namespace Lib

/-- A byte string. -/
abbrev Bytes := List UInt8

/-- A `std::map` from strings to strings. -/
abbrev StrMap := Std.ExtTreeMap Bytes Bytes

/-- The bytes of an ASCII literal. -/
def ascii (s : String) : Bytes := s.toList.map (fun c => UInt8.ofNat c.toNat)

/-- The newline character. -/
def newline : UInt8 := 10

/-- `s.find(c)`: the position of the first `c`, `none` for `npos`. -/
def find (c : UInt8) (s : Bytes) : Option Nat := s.findIdx? (· == c)

/-- The position of the last occurrence of a byte; `none` is `std::string::npos`. -/
def findLast (c : UInt8) : Bytes → Option Nat
  | [] => none
  | d :: s =>
      match findLast c s with
      | some n => some (n + 1)
      | none => if d = c then some 0 else none

/-- `s.substr(pos, n)` for `pos ≤ s.size()`: at most `n` characters from `pos` on. -/
def substr (s : Bytes) (pos n : Nat) : Bytes := (s.drop pos).take n

/-- The characters a C string function sees: everything before the first NUL. -/
def cStr (s : Bytes) : Bytes := s.takeWhile (· != 0)

/-! ## `find` and `substr` -/

theorem find_eq_none_iff {c : UInt8} {s : Bytes} : find c s = none ↔ c ∉ s := by
  simp only [find, List.findIdx?_eq_none_iff, beq_eq_false_iff_ne, ne_eq]
  exact ⟨fun h hc => h c hc rfl, fun h x hx he => h (he ▸ hx)⟩

/-- A separator right after a part free of it is the one `find` reports. -/
theorem find_append_cons {c : UInt8} {p : Bytes} (r : Bytes) (hp : c ∉ p) :
    find c (p ++ c :: r) = some p.length := by
  have hnone : p.findIdx? (· == c) = none := find_eq_none_iff.mpr hp
  simp [find, List.findIdx?_append, hnone, List.findIdx?_cons]

theorem find_lt_length {c : UInt8} {s : Bytes} {n : Nat} (h : find c s = some n) : n < s.length := by
  obtain ⟨hn, _⟩ := List.findIdx?_eq_some_iff_getElem.mp h
  exact hn

/-- The first occurrence of a byte splits a string. -/
theorem find_split {c : UInt8} {s : Bytes} {n : Nat} (h : find c s = some n) :
    c ∉ s.take n ∧ s = s.take n ++ c :: s.drop (n + 1) := by
  obtain ⟨hn, hc, hbefore⟩ := List.findIdx?_eq_some_iff_getElem.mp h
  refine ⟨fun hmem => ?_, ?_⟩
  · obtain ⟨j, hj, hjc⟩ := List.mem_take_iff_getElem.mp hmem
    exact hbefore j (by omega) (beq_iff_eq.mpr hjc)
  · have hdrop : s.drop n = c :: s.drop (n + 1) := by
      rw [List.drop_eq_getElem_cons hn, beq_iff_eq.mp hc]
    rw [← hdrop, List.take_append_drop]

/-- `find` sees the same separator when text is appended. -/
theorem find_append_of_some {c : UInt8} {s : Bytes} {n : Nat} (d : Bytes) (h : find c s = some n) :
    find c (s ++ d) = some n := by
  have h' : s.findIdx? (· == c) = some n := h
  simp [find, List.findIdx?_append, h']

/-- A count that reaches the end makes `substr` the rest of the string. -/
theorem substr_of_le {s : Bytes} {pos n : Nat} (h : s.length ≤ pos + n) : substr s pos n = s.drop pos := by
  unfold substr
  exact List.take_of_length_le (by simp; omega)

/-- What stands behind a separator, for every count that reaches the end. -/
theorem substr_behind {p r : Bytes} {c : UInt8} {n : Nat} (h : r.length ≤ n) :
    substr (p ++ c :: r) (p.length + 1) n = r := by
  have hreach : (p ++ c :: r).length ≤ p.length + 1 + n := by
    rw [List.length_append, List.length_cons]
    omega
  rw [substr_of_le hreach, ← List.drop_drop, List.drop_left]
  rfl

theorem substr_zero (s : Bytes) (n : Nat) : substr s 0 n = s.take n := rfl

/-! ## The text in front of a separator -/

theorem takeWhile_of_find_none {c : UInt8} {s : Bytes} (h : find c s = none) : s.takeWhile (· != c) = s := by
  refine List.takeWhile_eq_self_iff.mpr fun b hb => ?_
  rw [bne_iff_ne]
  rintro rfl
  exact find_eq_none_iff.mp h hb

theorem takeWhile_of_find {c : UInt8} {s : Bytes} {n : Nat} (h : find c s = some n) :
    s.takeWhile (· != c) = substr s 0 n := by
  obtain ⟨hnot, hsplit⟩ := find_split h
  have hfront : ∀ b ∈ s.take n, (b != c) = true := by
    intro b hb
    rw [bne_iff_ne]
    rintro rfl
    exact hnot hb
  rw [substr_zero]
  conv_lhs => rw [hsplit, List.takeWhile_append_of_pos hfront]
  simp

/-- A text is not read past a byte that ends it. -/
theorem takeWhile_stop {p : UInt8 → Bool} {b : UInt8} (hb : p b = false) (s r : Bytes) :
    (s ++ b :: r).takeWhile p = s.takeWhile p := by
  induction s with
  | nil => simp [hb]
  | cons d s ih =>
      rw [List.cons_append, List.takeWhile_cons, List.takeWhile_cons, ih]

/-! ## `find_last_of` -/

theorem findLast_eq_none_iff {c : UInt8} {s : Bytes} : findLast c s = none ↔ c ∉ s := by
  induction s with
  | nil => exact iff_of_true rfl List.not_mem_nil
  | cons d s ih =>
      rw [findLast, List.mem_cons, not_or, ← ih]
      cases findLast c s with
      | some n => simp
      | none => simp [eq_comm]

/-- An occurrence behind `s` is later than every one in `s`. -/
theorem findLast_append (c : UInt8) (s t : Bytes) :
    findLast c (s ++ t) = match findLast c t with
      | some n => some (s.length + n)
      | none => findLast c s := by
  induction s with
  | nil =>
      rw [List.nil_append]
      cases findLast c t with
      | some n => simp
      | none => rfl
  | cons d s ih =>
      rw [List.cons_append, findLast, ih, findLast]
      cases findLast c t with
      | some n =>
          rw [List.length_cons]
          exact congrArg some (by omega)
      | none => rfl

theorem findLast_append_of_not_mem {c : UInt8} {t : Bytes} (h : c ∉ t) (s : Bytes) :
    findLast c (s ++ t) = findLast c s := by
  rw [findLast_append, findLast_eq_none_iff.mpr h]

theorem findLast_append_cons {c : UInt8} {r : Bytes} (h : c ∉ r) (p : Bytes) :
    findLast c (p ++ c :: r) = some p.length := by
  have hlast : findLast c (c :: r) = some 0 := by
    rw [findLast, findLast_eq_none_iff.mpr h]
    exact if_pos rfl
  rw [findLast_append, hlast]
  rfl

theorem findLast_lt_length {c : UInt8} {s : Bytes} {n : Nat} (h : findLast c s = some n) : n < s.length := by
  induction s generalizing n with
  | nil => cases h
  | cons d s ih =>
      rw [findLast] at h
      split at h
      · rename_i m hm
        obtain rfl := Option.some.inj h
        exact Nat.succ_lt_succ (ih hm)
      · split at h
        · obtain rfl := Option.some.inj h
          exact Nat.succ_pos _
        · cases h

/-- The last occurrence of a byte splits a string. -/
theorem exists_of_findLast {c : UInt8} {s : Bytes} {n : Nat} (h : findLast c s = some n) :
    ∃ p r, s = p ++ c :: r ∧ c ∉ r ∧ p.length = n := by
  induction s generalizing n with
  | nil => cases h
  | cons d s ih =>
      rw [findLast] at h
      split at h
      · rename_i m hm
        obtain ⟨p, r, rfl, hr, hp⟩ := ih hm
        exact ⟨d :: p, r, rfl, hr, by rw [List.length_cons, hp]; exact Option.some.inj h⟩
      · rename_i hnone
        split at h
        · rename_i hd
          exact ⟨[], s, by rw [hd]; rfl, findLast_eq_none_iff.mp hnone, Option.some.inj h⟩
        · cases h

/-! ## C strings -/

theorem cStr_cons (b : UInt8) (s : Bytes) : cStr (b :: s) = if b = 0 then [] else b :: cStr s := by
  unfold cStr
  rw [List.takeWhile_cons]
  by_cases hb : b = 0 <;> simp [hb]

theorem cStr_append_of_not_mem {s : Bytes} (t : Bytes) (h : 0 ∉ s) : cStr (s ++ t) = s ++ cStr t := by
  unfold cStr
  apply List.takeWhile_append_of_pos
  intro b hb
  rw [bne_iff_ne]
  rintro rfl
  exact h hb

/-- A NUL ends a C string. -/
theorem cStr_append_zero (s t : Bytes) : cStr (s ++ 0 :: t) = cStr s := by
  induction s with
  | nil => rfl
  | cons b s ih => rw [List.cons_append, cStr_cons, cStr_cons, ih]

/-- Nothing behind a NUL matters. -/
theorem cStr_append_of_mem {s : Bytes} (h : 0 ∈ s) (t : Bytes) : cStr (s ++ t) = cStr s := by
  obtain ⟨p, r, rfl⟩ := List.append_of_mem h
  rw [List.append_assoc, List.cons_append, cStr_append_zero, cStr_append_zero]

theorem zero_not_mem_cStr (s : Bytes) : 0 ∉ cStr s :=
  fun h0 => absurd (List.mem_takeWhile_imp h0) (by simp)

theorem cStr_length_le (s : Bytes) : (cStr s).length ≤ s.length :=
  (List.takeWhile_prefix _).length_le

theorem cStr_eq_self_iff {s : Bytes} : cStr s = s ↔ 0 ∉ s := by
  constructor
  · intro h
    rw [← h]
    exact zero_not_mem_cStr s
  · intro h
    have happ := cStr_append_of_not_mem [] h
    simpa [cStr] using happ

theorem length_cStr_eq_iff {s : Bytes} : (cStr s).length = s.length ↔ 0 ∉ s := by
  rw [← cStr_eq_self_iff]
  exact ⟨(List.takeWhile_prefix _).eq_of_length, congrArg List.length⟩

/-! ## Maps -/

/-- Assigning the entries of a map one by one into an empty one gives the map again. -/
theorem foldl_insert_toList (m : StrMap) :
    m.toList.foldl (fun acc kv => acc.insert kv.1 kv.2) (∅ : StrMap) = m := by
  rw [← Std.ExtTreeMap.insertMany_list_eq_foldl]
  apply Std.ExtTreeMap.ext_getElem?
  intro k
  cases hk : m[k]? with
  | none =>
      rw [Std.ExtTreeMap.getElem?_insertMany_list_of_contains_eq_false]
      · rfl
      · simpa using hk
  | some v =>
      have hmem : (k, v) ∈ m.toList := Std.ExtTreeMap.mem_toList_iff_getElem?_eq_some.mpr hk
      exact Std.ExtTreeMap.getElem?_insertMany_list_of_mem (by simp) m.distinct_keys_toList hmem

/-! ## Decimal numerals -/

/-- `'0'` to `'9'`. -/
def isDigit (b : UInt8) : Bool := 48 ≤ b && b ≤ 57

/-- The character of a digit below ten. -/
def digitChar (d : Nat) : UInt8 := UInt8.ofNat (48 + d)

/-- The number a string of digits denotes. -/
def digitsValue (s : Bytes) : Nat := s.foldl (fun n b => 10 * n + (b.toNat - 48)) 0

/-- What an output stream writes for an unsigned number. -/
def decimal (n : Nat) : Bytes :=
  if n = 0 then [48] else (Nat.digits 10 n).reverse.map digitChar

theorem digitChar_toNat {d : Nat} (h : d < 10) : (digitChar d).toNat = 48 + d := by
  simp only [digitChar, UInt8.toNat_ofNat']
  omega

theorem isDigit_digitChar {d : Nat} (h : d < 10) : isDigit (digitChar d) = true := by
  simp only [isDigit, Bool.and_eq_true, decide_eq_true_eq, UInt8.le_iff_toNat_le, digitChar_toNat h]
  constructor
  · show 48 ≤ 48 + d
    omega
  · show 48 + d ≤ 57
    omega

theorem digit_lt_ten {n d : Nat} (h : d ∈ Nat.digits 10 n) : d < 10 :=
  Nat.digits_lt_base (by norm_num) h

theorem decimal_isDigit {n : Nat} {b : UInt8} (h : b ∈ decimal n) : isDigit b = true := by
  unfold decimal at h
  split at h
  · rw [List.mem_singleton] at h
    subst h
    rfl
  · obtain ⟨d, hd, rfl⟩ := List.mem_map.mp h
    exact isDigit_digitChar (digit_lt_ten (List.mem_reverse.mp hd))

theorem decimal_ne_nil (n : Nat) : decimal n ≠ [] := by
  unfold decimal
  split
  · exact List.cons_ne_nil _ _
  · rename_i h
    simpa [Nat.digits_eq_nil_iff_eq_zero] using h

theorem not_mem_decimal {n : Nat} {b : UInt8} (h : isDigit b = false) : b ∉ decimal n := by
  intro hb
  rw [decimal_isDigit hb] at h
  exact Bool.noConfusion h

/-- Reading digits most significant first is `Nat.ofDigits` of the reversed list. -/
theorem digitsValue_map_reverse (l : List Nat) (h : ∀ d ∈ l, d < 10) :
    digitsValue (l.reverse.map digitChar) = Nat.ofDigits 10 l := by
  induction l with
  | nil => rfl
  | cons d ds ih =>
      have hd : (digitChar d).toNat - 48 = d := by rw [digitChar_toNat (h d (by simp))]; omega
      have hih := ih (fun x hx => h x (by simp [hx]))
      simp only [digitsValue] at hih
      simp only [digitsValue, List.reverse_cons, List.map_append, List.foldl_append, List.map_cons,
        List.map_nil, List.foldl_cons, List.foldl_nil, hih, hd, Nat.ofDigits_cons]
      ring

/-- **Reading a written number back gives the number.** -/
theorem digitsValue_decimal (n : Nat) : digitsValue (decimal n) = n := by
  unfold decimal
  split
  · rename_i h
    subst h
    rfl
  · rw [digitsValue_map_reverse _ (fun d hd => digit_lt_ten hd), Nat.ofDigits_digits]

end Lib
