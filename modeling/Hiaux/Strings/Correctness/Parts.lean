import Hiaux.Strings.Correctness.Utf8Text

/-!
# `Strings.Correctness.Parts` — the two parts and the prefixes of a string

`splitIntoTwoUtf8` cuts the longest valid prefix of a string at the first delimiter, and `getPrefixesUtf8` lists
the prefixes of that text. An array that holds a text is read back as a C string, so up to its first NUL.
-/

namespace Hiaux
namespace Strings

open Lib Utf8

variable {v : Bytes} {cs : List Char}

theorem LongestValid.length_le (h : LongestValid v cs) : (utf8 cs).length ≤ v.length := h.1.length_le

/-- A text that is written into a new array. -/
theorem holds_written {cs : List Char} {n : Nat} (hle : (utf8 cs).length ≤ n) :
    ((CharBuffer.zeroed (n + 1)).writeAll (utf8 cs)).Holds (n + 1) (utf8 cs) := by
  have hroom : ([] : Bytes).length + (utf8 cs).length ≤ n + 1 := by
    rw [List.length_nil]
    omega
  have hholds := (CharBuffer.holds_zeroed (n + 1)).writeAll hroom
  rwa [List.nil_append] at hholds

theorem writeAll_append (buf : CharBuffer) (bs bs' : Bytes) :
    (buf.writeAll bs).writeAll bs' = buf.writeAll (bs ++ bs') := List.foldl_append.symm

/-! ## Two parts -/

section Two

variable {delim : UInt32} {st : TwoArrays}

/-- What stands before the first delimiter. -/
def before (delim : UInt32) (cs : List Char) : List Char := cs.takeWhile (fun c => c.val != delim)

/-- What stands behind the first delimiter. -/
def behind (delim : UInt32) (cs : List Char) : List Char := (cs.dropWhile (fun c => c.val != delim)).tail

/-- A text, and what stands before and behind its first delimiter. -/
def CutAt (delim : UInt32) (cs p q : List Char) : Prop :=
  (∀ c ∈ p, c.val ≠ delim) ∧ ((∃ d : Char, d.val = delim ∧ cs = p ++ d :: q) ∨ cs = p ∧ q = [])

theorem cutAt_before_behind (delim : UInt32) (cs : List Char) :
    CutAt delim cs (before delim cs) (behind delim cs) := by
  have hcut : before delim cs ++ cs.dropWhile (fun c => c.val != delim) = cs := List.takeWhile_append_dropWhile
  refine ⟨fun c hc => by simpa using List.mem_takeWhile_imp hc, ?_⟩
  cases hdrop : cs.dropWhile (fun c => c.val != delim) with
  | nil =>
      rw [hdrop, List.append_nil] at hcut
      exact Or.inr ⟨hcut.symm, by rw [behind, hdrop]; rfl⟩
  | cons d ds =>
      have hhead := List.head?_dropWhile_not (fun c : Char => c.val != delim) cs
      rw [hdrop] at hhead
      rw [hdrop] at hcut
      have hdelim : d.val = delim := by simpa using hhead
      refine Or.inl ⟨d, hdelim, ?_⟩
      rw [behind, hdrop]
      exact hcut.symm

/-- A round of the loop, for a code point. -/
def twoRound (delim : UInt32) (c : Char) (st : TwoArrays) : TwoArrays :=
  if st.first && c.val == delim then { st with first := false }
  else if st.first then { st with f := st.f.writeAll (String.utf8EncodeChar c) }
  else { st with s := st.s.writeAll (String.utf8EncodeChar c) }

theorem splitIntoTwoStep_val (c : Char) (st : TwoArrays) :
    splitIntoTwoStep delim c.val st = .ok (twoRound delim c st) := by
  unfold splitIntoTwoStep twoRound
  rw [append_val]
  split_ifs <;> rfl

/-- Behind the delimiter everything is written into the second array. -/
theorem foldl_twoRound_behind (h : st.first = false) (cs : List Char) :
    cs.foldl (fun st c => twoRound delim c st) st = { st with s := st.s.writeAll (utf8 cs) } := by
  induction cs generalizing st with
  | nil => rfl
  | cons c cs ih =>
      have hround : twoRound delim c st = { st with s := st.s.writeAll (String.utf8EncodeChar c) } := by
        rw [twoRound, h]
        rfl
      rw [List.foldl_cons, hround, ih (by exact h), utf8_cons, ← writeAll_append]

variable (delim) in
/-- **The rounds of the loop**: what stands before the delimiter is in the first array, what stands behind it in
    the second. -/
theorem foldl_twoRound (h : st.first = true) (cs : List Char) :
    (cs.foldl (fun st c => twoRound delim c st) st).f = st.f.writeAll (utf8 (before delim cs)) ∧
      (cs.foldl (fun st c => twoRound delim c st) st).s = st.s.writeAll (utf8 (behind delim cs)) := by
  induction cs generalizing st with
  | nil => exact ⟨rfl, rfl⟩
  | cons c cs ih =>
      rw [List.foldl_cons]
      by_cases hc : c.val = delim
      · have hround : twoRound delim c st = { st with first := false } := by
          rw [twoRound, h, hc, beq_self_eq_true]
          rfl
        have hbefore : before delim (c :: cs) = [] := by simp [before, hc]
        have hbehind : behind delim (c :: cs) = cs := by simp [behind, hc]
        rw [hround, foldl_twoRound_behind rfl, hbefore, hbehind]
        exact ⟨rfl, rfl⟩
      · have hround : twoRound delim c st = { st with f := st.f.writeAll (String.utf8EncodeChar c) } := by
          rw [twoRound, h, beq_false_of_ne hc]
          rfl
        have hbefore : before delim (c :: cs) = c :: before delim cs := by simp [before, hc]
        have hbehind : behind delim (c :: cs) = behind delim cs := by simp [behind, hc]
        have hfirst : (twoRound delim c st).first = true := by
          rw [hround]
          exact h
        obtain ⟨hf, hs⟩ := ih hfirst
        rw [hf, hs, hbefore, hbehind, hround, utf8_cons, ← writeAll_append]
        exact ⟨rfl, rfl⟩

/-- The parts of a text are not longer than it. -/
theorem CutAt.length_le {p q : List Char} (h : CutAt delim cs p q) :
    (utf8 p).length ≤ (utf8 cs).length ∧ (utf8 q).length ≤ (utf8 cs).length := by
  obtain ⟨-, ⟨d, -, rfl⟩ | ⟨rfl, rfl⟩⟩ := h
  · simp only [utf8_append, utf8_cons, List.length_append]
    omega
  · exact ⟨Nat.le_refl _, Nat.zero_le _⟩

/-- **`splitIntoTwoUtf8` cuts at the first delimiter** the text of the longest valid prefix, and stays inside its
    arrays. -/
theorem splitIntoTwoUtf8_cuts (v : Bytes) (delim : UInt32) (f s : Bytes) (hne : v ≠ []) :
    ∃ cs p q, LongestValid v cs ∧ CutAt delim cs p q ∧
      (splitIntoTwoUtf8 v delim f s).f = cStr (utf8 p) ∧ (splitIntoTwoUtf8 v delim f s).s = cStr (utf8 q) ∧
      (splitIntoTwoUtf8 v delim f s).arrays.f.inside = true ∧
      (splitIntoTwoUtf8 v delim f s).arrays.s.inside = true := by
  obtain ⟨cs, hcs⟩ := exists_longestValid v
  have hcut := cutAt_before_behind delim cs
  refine ⟨cs, before delim cs, behind delim cs, hcs, hcut, ?_⟩
  obtain ⟨r, e, hsplit, hr⟩ := hcs.split
  have hbody : ∀ c ∈ cs, ∀ st, splitIntoTwoStep delim c.val st = .ok (twoRound delim c st) :=
    fun c _ st => splitIntoTwoStep_val c st
  have hloop := forSymbols_utf8 hbody hr ⟨true, .zeroed (v.length + 1), .zeroed (v.length + 1)⟩
  rw [← hsplit] at hloop
  have hstart : (⟨true, .zeroed (v.length + 1), .zeroed (v.length + 1)⟩ : TwoArrays).first = true := rfl
  obtain ⟨hf, hs⟩ := foldl_twoRound delim hstart cs
  have hbefore := hcut.length_le.1.trans hcs.length_le
  have hbehind := hcut.length_le.2.trans hcs.length_le
  unfold splitIntoTwoUtf8
  rw [if_neg hne, hloop]
  dsimp only
  rw [hf, hs]
  exact ⟨(holds_written hbefore).text_eq_cStr, (holds_written hbehind).text_eq_cStr,
    ((holds_written hbefore).read (Nat.lt_succ_of_le hbefore)).inside,
    ((holds_written hbehind).read (Nat.lt_succ_of_le hbehind)).inside⟩

/-- `k=v`. -/
theorem splitIntoTwoUtf8_cuts_pair :
    ∃ cs p q, LongestValid (ascii "k=v") cs ∧ CutAt 61 cs p q ∧
      (splitIntoTwoUtf8 (ascii "k=v") 61 [] []).f = cStr (utf8 p) ∧
      (splitIntoTwoUtf8 (ascii "k=v") 61 [] []).s = cStr (utf8 q) ∧
      (splitIntoTwoUtf8 (ascii "k=v") 61 [] []).arrays.f.inside = true ∧
      (splitIntoTwoUtf8 (ascii "k=v") 61 [] []).arrays.s.inside = true :=
  splitIntoTwoUtf8_cuts (ascii "k=v") 61 [] [] (by decide)

end Two

/-! ## Prefixes -/

section Prefixes

variable {size : Nat} {read cs : List Char} {st : PrefixesUtf8}

/-- A round of the loop, for a code point. -/
def prefixRound (c : Char) (st : PrefixesUtf8) : PrefixesUtf8 :=
  ⟨(st.res.writeAll (String.utf8EncodeChar c)).read,
    st.prefixes ++ [(st.res.writeAll (String.utf8EncodeChar c)).text]⟩

theorem getPrefixesStep_val (c : Char) (st : PrefixesUtf8) :
    getPrefixesStep c.val st = .ok (prefixRound c st) := by
  rw [getPrefixesStep, append_val]
  rfl

/-- The non-empty prefixes of a text, as they are read back. -/
def prefixes (cs : List Char) : List Bytes := cs.inits.tail.map (fun p => cStr (utf8 p))

/-- The prefixes that are longer by one of the code points to come. -/
theorem map_inits_cons (read : List Char) (c : Char) (cs : List Char) :
    (c :: cs).inits.tail.map (fun p => cStr (utf8 (read ++ p))) =
      cStr (utf8 (read ++ [c])) :: cs.inits.tail.map (fun p => cStr (utf8 (read ++ [c] ++ p))) := by
  have hinits : cs.inits = [] :: cs.inits.tail := by cases cs <;> rfl
  rw [List.inits_cons, List.tail_cons, hinits]
  simp [Function.comp_def]

/-- **The rounds of the loop**: the array holds what has been read, and its prefixes have been pushed. -/
theorem foldl_prefixRound (h : st.res.Holds (size + 1) (utf8 read)) (hle : (utf8 (read ++ cs)).length ≤ size) :
    (cs.foldl (fun st c => prefixRound c st) st).res.Holds (size + 1) (utf8 (read ++ cs)) ∧
      (cs.foldl (fun st c => prefixRound c st) st).prefixes =
        st.prefixes ++ cs.inits.tail.map (fun p => cStr (utf8 (read ++ p))) := by
  induction cs generalizing read st with
  | nil =>
      rw [List.append_nil]
      exact ⟨h, (List.append_nil _).symm⟩
  | cons c cs ih =>
      have hconcat : read ++ [c] ++ cs = read ++ c :: cs := List.append_assoc read [c] cs
      have hlength : (utf8 read).length + ((String.utf8EncodeChar c).length + (utf8 cs).length) ≤ size := by
        simpa using hle
      have hwrite : (st.res.writeAll (String.utf8EncodeChar c)).Holds (size + 1) (utf8 (read ++ [c])) := by
        rw [utf8_append, utf8_cons, utf8_nil, List.append_nil]
        exact h.writeAll (by omega)
      have hround : (prefixRound c st).res.Holds (size + 1) (utf8 (read ++ [c])) := by
        refine hwrite.read ?_
        simp only [utf8_append, utf8_cons, utf8_nil, List.append_nil, List.length_append]
        omega
      obtain ⟨hres, hprefixes⟩ := ih hround (hconcat ▸ hle)
      rw [hconcat] at hres
      rw [List.foldl_cons]
      refine ⟨hres, ?_⟩
      have hpushed : (prefixRound c st).prefixes = st.prefixes ++ [cStr (utf8 (read ++ [c]))] :=
        congrArg (fun text => st.prefixes ++ [text]) hwrite.text_eq_cStr
      rw [hprefixes, hpushed, map_inits_cons, List.append_assoc, List.singleton_append]

/-- **`getPrefixesUtf8` lists the prefixes** of the text of the longest valid prefix, the shortest first, and stays
    inside its array. -/
theorem getPrefixesUtf8_lists (word : Bytes) (given : List Bytes) :
    ∃ cs, LongestValid word cs ∧ (getPrefixesUtf8 word given).prefixes = given ++ prefixes cs ∧
      (getPrefixesUtf8 word given).res.inside = true := by
  obtain ⟨cs, hcs⟩ := exists_longestValid word
  refine ⟨cs, hcs, ?_⟩
  unfold getPrefixesUtf8
  by_cases hnil : word = []
  · subst hnil
    obtain rfl := utf8_eq_nil_iff.mp (List.prefix_nil.mp hcs.1)
    exact ⟨(List.append_nil given).symm, rfl⟩
  · obtain ⟨r, e, hsplit, hr⟩ := hcs.split
    have hbody : ∀ c ∈ cs, ∀ st, getPrefixesStep c.val st = .ok (prefixRound c st) :=
      fun c _ st => getPrefixesStep_val c st
    have hloop := forSymbols_utf8 hbody hr ⟨.zeroed (word.length + 1), given⟩
    rw [← hsplit] at hloop
    have hstart : (⟨.zeroed (word.length + 1), given⟩ : PrefixesUtf8).res.Holds (word.length + 1) (utf8 []) :=
      CharBuffer.holds_zeroed _
    obtain ⟨hres, hprefixes⟩ := foldl_prefixRound hstart hcs.length_le
    rw [if_neg hnil, hloop]
    exact ⟨hprefixes, hres.inside⟩

end Prefixes

end Strings
end Hiaux
