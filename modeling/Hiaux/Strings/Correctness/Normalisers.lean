import Hiaux.Strings.Correctness.Utf8Text

/-!
# `Strings.Correctness.Normalisers` — what is made of the code points of a string

A helper that writes `g c` for every code point `c` of the longest valid prefix leaves all that it has written,
if that fits into its array (`rewriteUtf8_value`). Lower-casing keeps the length of an encoding and erasing
shortens a text, so both always fit. Replacing one code point by another fits exactly if it does not lengthen the
text.
-/

namespace Hiaux
namespace Strings

open Lib Utf8

/-! ## Writing for every code point -/

section Rewrite

variable {write : UInt32 → Except UtfError Bytes} {g : Char → Bytes} {cs : List Char} {s : Bytes}

/-- A helper has written at most `|s|` bytes into its array of `|s|+1`, and reads it back inside. -/
structure StaysInside (s : Bytes) (r : Rewritten) : Prop where
  size : r.res.bytes.length = s.length + 1
  pos : r.res.pos ≤ s.length
  inside : r.res.inside = true

theorem foldl_writeAll (g : Char → Bytes) (cs : List Char) (buf : CharBuffer) :
    cs.foldl (fun buf c => buf.writeAll (g c)) buf = buf.writeAll (cs.flatMap g) := by
  unfold CharBuffer.writeAll
  rw [List.foldl_flatMap]

/-- The array after the loop. -/
theorem rewriteUtf8_eq (hs : s ≠ []) (h : LongestValid s cs) (hwrite : ∀ c ∈ cs, write c.val = .ok (g c)) :
    rewriteUtf8 write s = ⟨((CharBuffer.zeroed (s.length + 1)).writeAll (cs.flatMap g)).text,
      ((CharBuffer.zeroed (s.length + 1)).writeAll (cs.flatMap g)).read⟩ := by
  obtain ⟨r, e, rfl, hr⟩ := h.split
  have hbody : ∀ c ∈ cs, ∀ buf, rewriteUtf8Step write c.val buf = .ok (buf.writeAll (g c)) := by
    intro c hc buf
    rw [rewriteUtf8Step, hwrite c hc]
    rfl
  have hloop := forSymbols_utf8 hbody hr (CharBuffer.zeroed ((utf8 cs ++ r).length + 1))
  rw [foldl_writeAll] at hloop
  rw [rewriteUtf8, if_neg hs, hloop]

/-- **How much is written.** -/
theorem rewriteUtf8_pos (h : LongestValid s cs) (hwrite : ∀ c ∈ cs, write c.val = .ok (g c)) :
    (rewriteUtf8 write s).res.pos = (cs.flatMap g).length := by
  by_cases hs : s = []
  · subst hs
    obtain rfl := utf8_eq_nil_iff.mp (List.prefix_nil.mp h.1)
    rfl
  · rw [rewriteUtf8_eq hs h hwrite]
    exact (CharBuffer.pos_writeAll _ _).trans (Nat.zero_add _)

/-- **What is written is left**, if it is not longer than the string. -/
theorem rewriteUtf8_value (h : LongestValid s cs) (hwrite : ∀ c ∈ cs, write c.val = .ok (g c))
    (hle : (cs.flatMap g).length ≤ s.length) (h0 : 0 ∉ cs.flatMap g) :
    (rewriteUtf8 write s).value = cs.flatMap g ∧ StaysInside s (rewriteUtf8 write s) := by
  have hpos := rewriteUtf8_pos h hwrite
  by_cases hs : s = []
  · subst hs
    obtain rfl := utf8_eq_nil_iff.mp (List.prefix_nil.mp h.1)
    exact ⟨rfl, rfl, Nat.le_refl 0, rfl⟩
  · have hroom : ([] : Bytes).length + (cs.flatMap g).length ≤ s.length + 1 := by
      rw [List.length_nil]
      omega
    have hholds := (CharBuffer.holds_zeroed (s.length + 1)).writeAll hroom
    rw [List.nil_append] at hholds
    have hread := hholds.read (Nat.lt_succ_of_le hle)
    rw [rewriteUtf8_eq hs h hwrite] at hpos ⊢
    exact ⟨hholds.text h0, hread.length, hpos.trans_le hle, hread.inside⟩

end Rewrite

/-! ## Lower case, and nothing but letters -/

theorem toNat_toLowerCharUtf8 (cp : UInt32) :
    (toLowerCharUtf8 cp).toNat =
      if 0x41 ≤ cp.toNat ∧ cp.toNat ≤ 0x5a ∨ 0x410 ≤ cp.toNat ∧ cp.toNat ≤ 0x42f then cp.toNat + 32
      else cp.toNat := by
  unfold toLowerCharUtf8
  simp only [Bool.and_eq_true, decide_eq_true_eq, UInt32.le_iff_toNat_le, UInt32.reduceToNat]
  split
  · rw [UInt32.toNat_sub, UInt32.toNat_add]
    simp only [UInt32.reduceToNat]
    split <;> omega
  · split
    · rw [UInt32.toNat_sub, UInt32.toNat_add]
      simp only [UInt32.reduceToNat]
      split <;> omega
    · split <;> omega

theorem isUtf8Char_iff (cp : UInt32) :
    isUtf8Char cp = true ↔ 0x41 ≤ cp.toNat ∧ cp.toNat ≤ 0x5a ∨ 0x61 ≤ cp.toNat ∧ cp.toNat ≤ 0x7a ∨
      0x410 ≤ cp.toNat ∧ cp.toNat ≤ 0x44f := by
  unfold isUtf8Char
  simp only [Bool.and_eq_true, decide_eq_true_eq, UInt32.le_iff_toNat_le, UInt32.reduceToNat]
  split
  · simp only [true_iff]
    omega
  · split
    · simp only [true_iff]
      omega
    · split
      · simp only [true_iff]
        omega
      · split
        · simp only [true_iff]
          omega
        · simp only [Bool.false_eq_true, false_iff]
          omega

/-- `toLowerCharUtf8` of a valid code point, which is valid again. -/
def lowerChar (c : Char) : Char :=
  ⟨toLowerCharUtf8 c.val, by
    have hvalid := (isCodePointValid_iff c.val).mp (val_valid c)
    have hlower := (isCodePointValid_iff (toLowerCharUtf8 c.val)).mpr (by
      rw [toNat_toLowerCharUtf8]
      split <;> omega)
    exact (isCodePointValid_iff _).mp hlower⟩

theorem toNat_lowerChar (c : Char) : (lowerChar c).val.toNat =
    if 0x41 ≤ c.val.toNat ∧ c.val.toNat ≤ 0x5a ∨ 0x410 ≤ c.val.toNat ∧ c.val.toNat ≤ 0x42f then
      c.val.toNat + 32
    else c.val.toNat :=
  toNat_toLowerCharUtf8 c.val

theorem char_ext {c d : Char} (h : c.val.toNat = d.val.toNat) : c = d :=
  Char.ext (UInt32.toNat_inj.mp h)

/-- Lower-casing twice is lower-casing once. -/
theorem lowerChar_lowerChar (c : Char) : lowerChar (lowerChar c) = lowerChar c := by
  apply char_ext
  rw [toNat_lowerChar, toNat_lowerChar c]
  split
  · rw [if_neg (by omega)]
  · rfl

/-- A letter stays a letter, and nothing becomes one. -/
theorem isUtf8Char_lowerChar (c : Char) : isUtf8Char (lowerChar c).val = isUtf8Char c.val := by
  rw [Bool.eq_iff_iff, isUtf8Char_iff, isUtf8Char_iff, toNat_lowerChar]
  split <;> omega

/-- Nothing else becomes a character in front of the letters. -/
theorem lowerChar_eq_iff {c d : Char} (hd : d.val.toNat < 0x41) : lowerChar c = d ↔ c = d := by
  have hchar : ∀ b : Char, b = d ↔ b.val.toNat = d.val.toNat := fun b => ⟨fun h => by rw [h], char_ext⟩
  rw [hchar, hchar, toNat_lowerChar]
  split <;> omega

/-- **Lower-casing keeps the length of an encoding**: both blocks stay on their side of each boundary. -/
theorem length_encode_lowerChar (c : Char) :
    (String.utf8EncodeChar (lowerChar c)).length = (String.utf8EncodeChar c).length := by
  have hlower := toNat_lowerChar c
  unfold String.utf8EncodeChar
  dsimp only
  by_cases h1 : c.val.toNat ≤ 0x7f
  · rw [if_pos h1, if_pos (show (lowerChar c).val.toNat ≤ 0x7f by split at hlower <;> omega)]
    rfl
  · rw [if_neg h1, if_neg (show ¬ (lowerChar c).val.toNat ≤ 0x7f by split at hlower <;> omega)]
    by_cases h2 : c.val.toNat ≤ 0x7ff
    · rw [if_pos h2, if_pos (show (lowerChar c).val.toNat ≤ 0x7ff by split at hlower <;> omega)]
      rfl
    · have hsame : (lowerChar c).val.toNat = c.val.toNat := by
        rw [hlower, if_neg (by omega)]
      rw [if_neg h2, hsame, if_neg h2]

theorem length_utf8_map {f : Char → Char}
    (hf : ∀ c, (String.utf8EncodeChar (f c)).length = (String.utf8EncodeChar c).length) (cs : List Char) :
    (utf8 (cs.map f)).length = (utf8 cs).length := by
  induction cs with
  | nil => rfl
  | cons c cs ih => rw [List.map_cons, utf8_cons, utf8_cons, List.length_append, List.length_append, hf, ih]

theorem zero_not_mem_lower {cs : List Char} (h : '\x00' ∉ cs) : 0 ∉ utf8 (cs.map lowerChar) := by
  rw [zero_mem_utf8_iff, List.mem_map]
  rintro ⟨c, hc, hnul⟩
  exact h ((lowerChar_eq_iff (by decide)).mp hnul ▸ hc)

theorem utf8_filter (p : Char → Bool) (cs : List Char) :
    utf8 (cs.filter p) = cs.flatMap (fun c => if p c then String.utf8EncodeChar c else []) := by
  induction cs with
  | nil => rfl
  | cons c cs ih =>
      rw [List.filter_cons, List.flatMap_cons, ← ih]
      split <;> rfl

/-- A valid string is its own longest valid prefix. -/
theorem longestValid_utf8 (cs : List Char) : LongestValid (utf8 cs) cs :=
  ⟨List.prefix_rfl, fun _ h => h.length_le⟩

theorem LongestValid.nul_not_mem {s : Bytes} {cs : List Char} (h : LongestValid s cs) (h0 : 0 ∉ s) :
    '\x00' ∉ cs :=
  fun hmem => h0 (h.1.subset (zero_mem_utf8_iff.mpr hmem))

variable {s : Bytes} {cs : List Char}

/-- **`toLowerUtf8`** lower-cases the code points of the longest valid prefix. -/
theorem toLowerUtf8_spec (h : LongestValid s cs) (h0 : 0 ∉ s) :
    (toLowerUtf8 s).value = utf8 (cs.map lowerChar) ∧ StaysInside s (toLowerUtf8 s) := by
  have hwrite : ∀ c ∈ cs, append (toLowerCharUtf8 c.val) = .ok (String.utf8EncodeChar (lowerChar c)) :=
    fun c _ => append_val (lowerChar c)
  have hmap : utf8 (cs.map lowerChar) = cs.flatMap (fun c => String.utf8EncodeChar (lowerChar c)) :=
    List.flatMap_map ..
  have hle : (utf8 (cs.map lowerChar)).length ≤ s.length := by
    rw [length_utf8_map length_encode_lowerChar]
    exact h.1.length_le
  have h0' := zero_not_mem_lower (h.nul_not_mem h0)
  rw [hmap] at hle h0' ⊢
  exact rewriteUtf8_value h hwrite hle h0'

/-- **`eraseNonCharsUtf8`** keeps the letters of the longest valid prefix. -/
theorem eraseNonCharsUtf8_spec (h : LongestValid s cs) (h0 : 0 ∉ s) :
    (eraseNonCharsUtf8 s).value = utf8 (cs.filter (fun c => isUtf8Char c.val)) ∧
      StaysInside s (eraseNonCharsUtf8 s) := by
  have hwrite : ∀ c ∈ cs, (if isUtf8Char c.val then append c.val else .ok []) =
      .ok (if isUtf8Char c.val then String.utf8EncodeChar c else []) := by
    intro c _
    rw [append_val]
    split <;> rfl
  have hsub : (utf8 (cs.filter (fun c => isUtf8Char c.val))).Sublist (utf8 cs) :=
    List.filter_sublist.flatMap _
  have hle : (utf8 (cs.filter (fun c => isUtf8Char c.val))).length ≤ s.length :=
    hsub.length_le.trans h.1.length_le
  have h0' : 0 ∉ utf8 (cs.filter (fun c => isUtf8Char c.val)) :=
    fun hmem => h0 (h.1.subset (hsub.subset hmem))
  rw [utf8_filter] at hle h0' ⊢
  exact rewriteUtf8_value h hwrite hle h0'

/-- **The normalisers are maps of code points** on the longest valid prefix of any string without NUL. They stay
    inside their arrays, doing them again changes nothing, and it does not matter which is done first. -/
theorem normalisers_are_maps (s : Bytes) (h0 : 0 ∉ s) :
    (∃ cs, LongestValid s cs) ∧
      (∀ cs, LongestValid s cs → (toLowerUtf8 s).value = utf8 (cs.map lowerChar) ∧
        (eraseNonCharsUtf8 s).value = utf8 (cs.filter (fun c => isUtf8Char c.val))) ∧
      StaysInside s (toLowerUtf8 s) ∧ StaysInside s (eraseNonCharsUtf8 s) ∧
      (toLowerUtf8 (toLowerUtf8 s).value).value = (toLowerUtf8 s).value ∧
      (eraseNonCharsUtf8 (eraseNonCharsUtf8 s).value).value = (eraseNonCharsUtf8 s).value ∧
      (eraseNonCharsUtf8 (toLowerUtf8 s).value).value = (toLowerUtf8 (eraseNonCharsUtf8 s).value).value := by
  obtain ⟨cs, hcs⟩ := exists_longestValid s
  obtain ⟨hlower, hlowerInside⟩ := toLowerUtf8_spec hcs h0
  obtain ⟨herase, heraseInside⟩ := eraseNonCharsUtf8_spec hcs h0
  have hnul := hcs.nul_not_mem h0
  have h0lower := zero_not_mem_lower hnul
  have h0erase : 0 ∉ utf8 (cs.filter (fun c => isUtf8Char c.val)) := by
    rw [zero_mem_utf8_iff]
    exact fun hmem => hnul (List.mem_of_mem_filter hmem)
  have hagain : (cs.map lowerChar).map lowerChar = cs.map lowerChar := by
    rw [List.map_map]
    exact List.map_congr_left fun c _ => lowerChar_lowerChar c
  have hcommute : (cs.map lowerChar).filter (fun c => isUtf8Char c.val) =
      (cs.filter (fun c => isUtf8Char c.val)).map lowerChar := by
    rw [List.filter_map]
    exact congrArg (List.map lowerChar) (List.filter_congr fun c _ => isUtf8Char_lowerChar c)
  refine ⟨⟨cs, hcs⟩, fun ds hds => ⟨(toLowerUtf8_spec hds h0).1, (eraseNonCharsUtf8_spec hds h0).1⟩,
    hlowerInside, heraseInside, ?_, ?_, ?_⟩
  · rw [hlower, (toLowerUtf8_spec (longestValid_utf8 _) h0lower).1, hagain]
  · rw [herase, (eraseNonCharsUtf8_spec (longestValid_utf8 _) h0erase).1, List.filter_filter]
    simp
  · rw [hlower, herase, (eraseNonCharsUtf8_spec (longestValid_utf8 _) h0lower).1,
      (toLowerUtf8_spec (longestValid_utf8 _) h0erase).1, hcommute]

/-- A string of Latin and Cyrillic letters that breaks off inside a code point. -/
theorem normalisers_are_maps_broken :
    (∃ cs, LongestValid (utf8 ['A', 'Я', '!'] ++ [0xd0]) cs) ∧
      (∀ cs, LongestValid (utf8 ['A', 'Я', '!'] ++ [0xd0]) cs →
        (toLowerUtf8 (utf8 ['A', 'Я', '!'] ++ [0xd0])).value = utf8 (cs.map lowerChar) ∧
        (eraseNonCharsUtf8 (utf8 ['A', 'Я', '!'] ++ [0xd0])).value =
          utf8 (cs.filter (fun c => isUtf8Char c.val))) :=
  have h := normalisers_are_maps (utf8 ['A', 'Я', '!'] ++ [0xd0]) (by decide +kernel)
  ⟨h.1, h.2.1⟩

/-! ## Replacing a code point -/

section Replace

variable (what to' : Char)

/-- What is written for a code point. -/
def replaced (c : Char) : Char := if c = what then to' else c

theorem append_replaced (c : Char) :
    (if c.val == what.val then append to'.val else append c.val) =
      .ok (String.utf8EncodeChar (replaced what to' c)) := by
  unfold replaced
  by_cases hc : c = what
  · rw [if_pos (by rw [hc]; exact beq_self_eq_true _), if_pos hc, append_val]
  · rw [if_neg (fun h => hc (Char.ext (beq_iff_eq.mp h))), if_neg hc, append_val]

theorem flatMap_replaced (cs : List Char) :
    cs.flatMap (fun c => String.utf8EncodeChar (replaced what to' c)) = utf8 (cs.map (replaced what to')) :=
  (List.flatMap_map ..).symm

/-- The lengths before and after. -/
theorem length_replaced (cs : List Char) :
    (utf8 (cs.map (replaced what to'))).length + cs.count what * what.utf8Size =
      (utf8 cs).length + cs.count what * to'.utf8Size := by
  induction cs with
  | nil => simp
  | cons c cs ih =>
      rw [List.map_cons, utf8_cons, utf8_cons, List.length_append, List.length_append, List.count_cons,
        String.length_utf8EncodeChar, String.length_utf8EncodeChar]
      unfold replaced at ih ⊢
      by_cases hc : c = what
      · rw [if_pos hc, if_pos (beq_iff_eq.mpr hc), hc, Nat.add_mul, Nat.add_mul, Nat.one_mul, Nat.one_mul]
        omega
      · rw [if_neg hc, if_neg (fun h => hc (beq_iff_eq.mp h)), Nat.add_zero]
        omega

/-- How much `replaceCharUtf8` writes. -/
theorem replaceCharUtf8_pos (cs : List Char) :
    (replaceCharUtf8 (utf8 cs) what.val to'.val).res.pos = (utf8 (cs.map (replaced what to'))).length := by
  rw [← flatMap_replaced]
  exact rewriteUtf8_pos (longestValid_utf8 cs) fun c _ => append_replaced what to' c

/-- What `replaceCharUtf8` does if its replacements are not longer than what they replace. -/
theorem replaceCharUtf8_spec {cs : List Char} (h0 : 0 ∉ utf8 cs) (hto : to' ≠ '\x00')
    (hfits : what ∉ cs ∨ to'.utf8Size ≤ what.utf8Size) :
    (replaceCharUtf8 (utf8 cs) what.val to'.val).value = utf8 (cs.map (replaced what to')) ∧
      StaysInside (utf8 cs) (replaceCharUtf8 (utf8 cs) what.val to'.val) := by
  have hlength := length_replaced what to' cs
  have hle : (utf8 (cs.map (replaced what to'))).length ≤ (utf8 cs).length := by
    rcases hfits with hmem | hsize
    · rw [List.count_eq_zero.mpr hmem] at hlength
      omega
    · have hmul := Nat.mul_le_mul_left (cs.count what) hsize
      omega
  have hzero : 0 ∉ utf8 (cs.map (replaced what to')) := by
    rw [zero_mem_utf8_iff, List.mem_map]
    rintro ⟨c, hc, hnul⟩
    unfold replaced at hnul
    split at hnul
    · exact hto hnul
    · exact h0 (zero_mem_utf8_iff.mpr (hnul ▸ hc))
  rw [← flatMap_replaced] at hle hzero ⊢
  exact rewriteUtf8_value (longestValid_utf8 cs) (fun c _ => append_replaced what to' c) hle hzero

/-- **When `replaceCharUtf8` stays inside its array and replaces**: if there is nothing to replace, or the
    replacement is not longer than what it replaces. -/
theorem replaceCharUtf8_iff {cs : List Char} (h0 : 0 ∉ utf8 cs) (hto : to' ≠ '\x00') :
    ((replaceCharUtf8 (utf8 cs) what.val to'.val).value = utf8 (cs.map (replaced what to')) ∧
        StaysInside (utf8 cs) (replaceCharUtf8 (utf8 cs) what.val to'.val)) ↔
      what ∉ cs ∨ to'.utf8Size ≤ what.utf8Size := by
  refine ⟨?_, replaceCharUtf8_spec what to' h0 hto⟩
  rintro ⟨-, hinside⟩
  have hlength := length_replaced what to' cs
  have hpos := hinside.pos
  rw [replaceCharUtf8_pos] at hpos
  by_cases hmem : what ∈ cs
  · refine Or.inr (Nat.le_of_mul_le_mul_left ?_ (List.count_pos_iff.mpr hmem))
    omega
  · exact Or.inl hmem

end Replace

/-- `+` to space, which is the only use of `replaceCharUtf8`. -/
theorem replaceCharUtf8_plus :
    (replaceCharUtf8 (utf8 ['a', '+', 'я']) 0x2b 0x20).value = utf8 (['a', '+', 'я'].map (replaced '+' ' ')) ∧
      StaysInside (utf8 ['a', '+', 'я']) (replaceCharUtf8 (utf8 ['a', '+', 'я']) 0x2b 0x20) :=
  (replaceCharUtf8_iff '+' ' ' (by decide +kernel) (by decide +kernel)).mpr (by decide +kernel)

/-- **A longer replacement**: for `a`, replaced by `я`, two bytes are written into an array of two, and the text
    has no NUL behind it. -/
theorem replaceCharUtf8_overflow :
    (replaceCharUtf8 (utf8 ['a']) 'a'.val 'я'.val).res.pos = 2 ∧ (utf8 ['a']).length = 1 ∧
      ¬ StaysInside (utf8 ['a']) (replaceCharUtf8 (utf8 ['a']) 'a'.val 'я'.val) := by
  have hpos := replaceCharUtf8_pos 'a' 'я' ['a']
  have htwo : (utf8 (['a'].map (replaced 'a' 'я'))).length = 2 := by decide +kernel
  have hone : (utf8 ['a']).length = 1 := by decide +kernel
  refine ⟨hpos.trans htwo, hone, fun h => ?_⟩
  have hle := h.pos
  omega

end Strings
end Hiaux
