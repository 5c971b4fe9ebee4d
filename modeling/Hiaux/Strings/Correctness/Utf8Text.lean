import Mathlib.Data.Nat.Find
import Hiaux.Strings.Correctness.Utf8Codec
import Hiaux.Strings.Utf8Strings

/-!
# `Strings.Correctness.Utf8Text` — reading UTF-8 code point by code point

`utf8 cs` is the encoding of a text. The loop the string helpers share reads the code points of a valid string;
of any other string it reads the code points of the longest valid prefix, and then an exception leaves it
(`forSymbols_utf8`).
-/

namespace Hiaux
namespace Strings

open Lib Utf8

/-- The encoding of a text. -/
def utf8 (cs : List Char) : Bytes := cs.flatMap String.utf8EncodeChar

@[simp] theorem utf8_nil : utf8 [] = [] := rfl

@[simp] theorem utf8_cons (c : Char) (cs : List Char) : utf8 (c :: cs) = String.utf8EncodeChar c ++ utf8 cs := rfl

@[simp] theorem utf8_append (cs ds : List Char) : utf8 (cs ++ ds) = utf8 cs ++ utf8 ds := List.flatMap_append

theorem utf8_eq_nil_iff {cs : List Char} : utf8 cs = [] ↔ cs = [] := by
  cases cs <;> simp [String.utf8EncodeChar_ne_nil]

/-- An ASCII byte is in the encoding of its own character only. -/
theorem mem_encode_iff {b : UInt8} (hb : b.toNat < 128) {c : Char} :
    b ∈ String.utf8EncodeChar c ↔ c.val.toNat = b.toNat := by
  have hofNat : ∀ n : Nat, b = UInt8.ofNat n ↔ n % 256 = b.toNat := by
    intro n
    rw [← UInt8.toNat_inj, UInt8.toNat_ofNat']
    exact eq_comm
  unfold String.utf8EncodeChar
  dsimp only
  split
  · simp only [List.mem_singleton, hofNat]
    omega
  · split
    · simp only [List.mem_cons, List.not_mem_nil, or_false, hofNat]
      omega
    · split
      · simp only [List.mem_cons, List.not_mem_nil, or_false, hofNat]
        omega
      · simp only [List.mem_cons, List.not_mem_nil, or_false, hofNat]
        omega

theorem mem_utf8_iff {b : UInt8} {d : Char} (hb : b.toNat < 128) (hd : d.val.toNat = b.toNat) {cs : List Char} :
    b ∈ utf8 cs ↔ d ∈ cs := by
  have hchar : ∀ c : Char, b ∈ String.utf8EncodeChar c ↔ c = d := by
    intro c
    rw [mem_encode_iff hb, ← hd, UInt32.toNat_inj, ← Char.ext_iff]
  simp only [utf8, List.mem_flatMap, hchar, exists_eq_right]

theorem zero_mem_utf8_iff {cs : List Char} : 0 ∈ utf8 cs ↔ '\x00' ∈ cs := mem_utf8_iff (by decide) rfl

/-- A text is what its encoding says. -/
theorem utf8_inj {cs ds : List Char} : utf8 cs = utf8 ds ↔ cs = ds := by
  refine ⟨fun h => ?_, fun h => congrArg utf8 h⟩
  induction cs generalizing ds with
  | nil => exact (utf8_eq_nil_iff.mp h.symm).symm
  | cons c cs ih =>
      cases ds with
      | nil => exact utf8_eq_nil_iff.mp h
      | cons d ds =>
          have hnext := congrArg next h
          rw [utf8_cons, utf8_cons, next_encode, next_encode] at hnext
          obtain ⟨hval, hrest⟩ := Prod.mk.inj (Except.ok.inj hnext)
          rw [Char.ext hval, ih hrest]

/-! ## The longest valid prefix -/

/-- The text of the longest prefix of a string that is valid UTF-8. -/
def LongestValid (s : Bytes) (cs : List Char) : Prop :=
  utf8 cs <+: s ∧ ∀ cs', utf8 cs' <+: s → (utf8 cs').length ≤ (utf8 cs).length

theorem exists_longestValid (s : Bytes) : ∃ cs, LongestValid s cs := by
  classical
  let P := fun n => ∃ cs, utf8 cs <+: s ∧ (utf8 cs).length = n
  obtain ⟨cs, hcs, hlength⟩ : P (Nat.findGreatest P s.length) :=
    Nat.findGreatest_spec (Nat.zero_le _) ⟨[], List.nil_prefix, rfl⟩
  refine ⟨cs, hcs, fun cs' hcs' => ?_⟩
  rw [hlength]
  exact Nat.le_findGreatest hcs'.length_le ⟨cs', hcs', rfl⟩

theorem LongestValid.unique {s : Bytes} {cs ds : List Char} (hcs : LongestValid s cs) (hds : LongestValid s ds) :
    cs = ds := by
  have hlength := Nat.le_antisymm (hds.2 cs hcs.1) (hcs.2 ds hds.1)
  have hfront := List.prefix_of_prefix_length_le hcs.1 hds.1 hlength.le
  exact utf8_inj.mp (hfront.eq_of_length hlength)

/-- Behind the longest valid prefix stands no code point. -/
theorem LongestValid.split {s : Bytes} {cs : List Char} (h : LongestValid s cs) :
    ∃ r e, s = utf8 cs ++ r ∧ next r = .error e := by
  obtain ⟨⟨r, rfl⟩, hlongest⟩ := h
  cases hnext : next r with
  | error e => exact ⟨r, e, rfl, hnext⟩
  | ok read =>
      obtain ⟨c, -, rfl⟩ := next_sound hnext
      have hlonger := hlongest (cs ++ [c]) ⟨read.2, by simp⟩
      have hpos := List.length_pos_of_ne_nil (String.utf8EncodeChar_ne_nil (c := c))
      simp only [utf8_append, utf8_cons, utf8_nil, List.append_nil, List.length_append] at hlonger
      omega

/-! ## The loop -/

section Loop

variable {σ : Type} {body : UInt32 → σ → Except UtfError σ} {f : Char → σ → σ}

theorem forSymbols_of_error {r : Bytes} {e : UtfError} (st : σ) (h : next r = .error e) :
    forSymbols body r st = (st, true) := by
  rw [forSymbols]
  split
  · rfl
  · rename_i hok
    exact absurd (h.symm.trans hok) (by simp)

theorem forSymbols_cons {c : Char} {s : Bytes} {st st' : σ} (h : body c.val st = .ok st') :
    forSymbols body (String.utf8EncodeChar c ++ s) st = if s = [] then (st', false) else forSymbols body s st' := by
  rw [forSymbols]
  split
  · rename_i herror
    exact absurd ((next_encode c s).symm.trans herror) (by simp)
  · rename_i symbol rest hok
    obtain ⟨rfl, rfl⟩ := Prod.mk.inj (Except.ok.inj ((next_encode c s).symm.trans hok))
    rw [h]

/-- **The loop runs over the code points** that stand before the first byte that is not part of one; an
    exception leaves it if there is such a byte. -/
theorem forSymbols_utf8 {cs : List Char} (hbody : ∀ c ∈ cs, ∀ st, body c.val st = .ok (f c st)) {r : Bytes}
    {e : UtfError} (hr : next r = .error e) (st : σ) :
    forSymbols body (utf8 cs ++ r) st = (cs.foldl (fun st c => f c st) st, decide (cs = [] ∨ r ≠ [])) := by
  induction cs generalizing st with
  | nil => exact forSymbols_of_error st hr
  | cons c cs ih =>
      rw [utf8_cons, List.append_assoc, forSymbols_cons (hbody c List.mem_cons_self st)]
      by_cases hend : utf8 cs ++ r = []
      · obtain ⟨hcs, rfl⟩ := List.append_eq_nil_iff.mp hend
        obtain rfl := utf8_eq_nil_iff.mp hcs
        rw [if_pos hend]
        rfl
      · rw [if_neg hend, ih fun d hd => hbody d (List.mem_cons_of_mem c hd)]
        have hflag : (cs = [] ∨ r ≠ []) ↔ (c :: cs = [] ∨ r ≠ []) := by
          refine ⟨fun h => ?_, fun h => Or.inr (h.resolve_left (List.cons_ne_nil c cs))⟩
          rcases h with rfl | h
          · exact Or.inr fun hr => hend (by rw [hr]; rfl)
          · exact Or.inr h
        rw [List.foldl_cons, decide_eq_decide.mpr hflag]

end Loop

end Strings
end Hiaux
