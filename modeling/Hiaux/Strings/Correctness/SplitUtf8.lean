import Hiaux.Lib.Tokens
import Hiaux.Strings.Correctness.Utf8Text

/-!
# `Strings.Correctness.SplitUtf8` — what `splitUtf8` finds

Between two rounds the array holds the code points read since the last delimiter, and zeros behind them
(`CharBuffer.Holds`): the bytes of an earlier token are cleared with it. The last byte of the array is never
cleared, and never written either.
-/

namespace Hiaux
namespace Strings

open Lib Utf8

variable {delims : Std.ExtTreeSet UInt32} {size : Nat} {cur cs : List Char} {st : SplitUtf8} {elems : List Bytes}

/-- A delimiter. -/
def isDelim (delims : Std.ExtTreeSet UInt32) (c : Char) : Bool := delims.contains c.val

/-- A round of the loop, for a code point. -/
def splitRound (delims : Std.ExtTreeSet UInt32) (size : Nat) (c : Char) (st : SplitUtf8) : SplitUtf8 :=
  if isDelim delims c then { st.push with elem := st.push.elem.clear size }
  else { st with elem := st.elem.writeAll (String.utf8EncodeChar c) }

theorem splitUtf8Step_val (c : Char) (st : SplitUtf8) :
    splitUtf8Step delims size c.val st = .ok (splitRound delims size c st) := by
  unfold splitUtf8Step splitRound isDelim
  split
  · rfl
  · rw [append_val]
    rfl

/-- A token is pushed unless it is empty. -/
theorem push_spec (h : st.elem.Holds (size + 1) (utf8 cur)) (hle : (utf8 cur).length ≤ size)
    (h0 : 0 ∉ utf8 cur) :
    st.push.elem.Holds (size + 1) (utf8 cur) ∧ st.push.elems = st.elems ++ (emit cur []).map utf8 := by
  unfold SplitUtf8.push
  rw [h.pos]
  cases cur with
  | nil => exact ⟨h, (List.append_nil _).symm⟩
  | cons c cur =>
      have hne : (utf8 (c :: cur)).length ≠ 0 :=
        fun hzero => absurd (utf8_eq_nil_iff.mp (List.eq_nil_of_length_eq_zero hzero)) (List.cons_ne_nil c cur)
      rw [if_pos hne]
      refine ⟨h.read (Nat.lt_succ_of_le hle), ?_⟩
      show st.elems ++ [st.elem.text] = _
      rw [h.text h0]
      rfl

variable (delims) in
/-- **The rounds of the loop**: the array holds the current token, and the tokens before it have been pushed. -/
theorem foldl_splitRound (h : st.elem.Holds (size + 1) (utf8 cur)) (hle : (utf8 (cur ++ cs)).length ≤ size)
    (h0 : 0 ∉ utf8 (cur ++ cs)) :
    ∃ w, (cs.foldl (fun st c => splitRound delims size c st) st).push.elem.Holds (size + 1) w ∧
      (cs.foldl (fun st c => splitRound delims size c st) st).push.elems =
        st.elems ++ (tokensFrom (isDelim delims) cur cs).map utf8 := by
  induction cs generalizing cur st with
  | nil =>
      rw [List.append_nil] at hle h0
      exact ⟨utf8 cur, push_spec h hle h0⟩
  | cons c cs ih =>
      have hlength : (utf8 cur).length + ((String.utf8EncodeChar c).length + (utf8 cs).length) ≤ size := by
        simpa using hle
      have hzero : 0 ∉ utf8 cur ∧ 0 ∉ utf8 cs := by
        simp only [utf8_append, utf8_cons, List.mem_append, not_or] at h0
        exact ⟨h0.1, h0.2.2⟩
      have hconcat : cur ++ [c] ++ cs = cur ++ c :: cs := List.append_assoc cur [c] cs
      rw [List.foldl_cons, tokensFrom]
      by_cases hc : isDelim delims c = true
      · obtain ⟨hpush, helems⟩ := push_spec h (by omega) hzero.1
        have hround : splitRound delims size c st = ⟨st.push.elem.clear size, st.push.elems⟩ := if_pos hc
        have hclear : (splitRound delims size c st).elem.Holds (size + 1) (utf8 []) := by
          rw [hround]
          exact hpush.clear (by omega)
        obtain ⟨w, hw, hrest⟩ := ih hclear (by rw [List.nil_append]; omega) hzero.2
        refine ⟨w, hw, ?_⟩
        have hemit : emit cur (tokensFrom (isDelim delims) [] cs) =
            emit cur [] ++ tokensFrom (isDelim delims) [] cs := by
          rw [← emit_append]
          rfl
        rw [hrest, hround, helems, if_pos hc, hemit, List.map_append, List.append_assoc]
      · have hround : splitRound delims size c st = { st with elem := st.elem.writeAll (String.utf8EncodeChar c) } :=
          if_neg hc
        have hwrite : (splitRound delims size c st).elem.Holds (size + 1) (utf8 (cur ++ [c])) := by
          rw [hround, utf8_append, utf8_cons, utf8_nil, List.append_nil]
          exact h.writeAll (by omega)
        obtain ⟨w, hw, hrest⟩ := ih hwrite (hconcat ▸ hle) (hconcat ▸ h0)
        refine ⟨w, hw, ?_⟩
        rw [hrest, hround, if_neg hc]

/-- **What `splitUtf8` does with a valid string without NUL.** -/
theorem splitUtf8_utf8 (h0 : 0 ∉ utf8 cs) (delims : Std.ExtTreeSet UInt32) (elems : List Bytes) :
    (splitUtf8 (utf8 cs) delims elems).1.elems = elems ++ (tokens (isDelim delims) cs).map utf8 ∧
      (splitUtf8 (utf8 cs) delims elems).2 = false ∧
      (splitUtf8 (utf8 cs) delims elems).1.elem.inside = true ∧
      (splitUtf8 (utf8 cs) delims elems).1.elem.bytes.length = (utf8 cs).length + 1 := by
  unfold splitUtf8
  by_cases hnil : utf8 cs = []
  · obtain rfl := utf8_eq_nil_iff.mp hnil
    exact ⟨(List.append_nil _).symm, rfl, rfl, rfl⟩
  · have hcs : cs ≠ [] := fun h => hnil (utf8_eq_nil_iff.mpr h)
    have hend : next [] = .error .notEnoughRoom := rfl
    have hbody : ∀ c ∈ cs, ∀ st, splitUtf8Step delims (utf8 cs).length c.val st =
        .ok (splitRound delims (utf8 cs).length c st) := fun c _ st => splitUtf8Step_val c st
    have hloop := forSymbols_utf8 hbody hend ⟨.zeroed ((utf8 cs).length + 1), elems⟩
    rw [List.append_nil] at hloop
    have hstart : (⟨.zeroed ((utf8 cs).length + 1), elems⟩ : SplitUtf8).elem.Holds ((utf8 cs).length + 1) (utf8 []) :=
      CharBuffer.holds_zeroed _
    obtain ⟨w, hw, helems⟩ := foldl_splitRound delims hstart (Nat.le_refl (utf8 ([] ++ cs)).length) h0
    rw [if_neg hnil, hloop]
    simp only [hcs, ne_eq, not_true_eq_false, or_self, decide_false, Bool.false_eq_true, if_false]
    exact ⟨helems, trivial, hw.inside, hw.length⟩

/-- **`splitUtf8` tokenises by code point.** For every valid string without NUL it appends the maximal non-empty
    runs of code points that are no delimiters, in their order, and stays inside its array. -/
theorem splitUtf8_is_tokenisation (cs : List Char) (h0 : 0 ∉ utf8 cs) (delims : Std.ExtTreeSet UInt32)
    (elems : List Bytes) :
    ∃ ts, Tokenizes (isDelim delims) cs ts ∧
      (splitUtf8 (utf8 cs) delims elems).1.elems = elems ++ ts.map utf8 ∧
      (splitUtf8 (utf8 cs) delims elems).2 = false ∧
      (splitUtf8 (utf8 cs) delims elems).1.elem.inside = true ∧
      (splitUtf8 (utf8 cs) delims elems).1.elem.bytes.length = (utf8 cs).length + 1 :=
  ⟨tokens (isDelim delims) cs, tokenizes_iff.mpr rfl, splitUtf8_utf8 h0 delims elems⟩

/-- `да,,я`, split at commas. -/
theorem splitUtf8_is_tokenisation_commas :
    ∃ ts, Tokenizes (isDelim ((∅ : Std.ExtTreeSet UInt32).insert 44)) ['д', 'а', ',', ',', 'я'] ts ∧
      (splitUtf8 (utf8 ['д', 'а', ',', ',', 'я']) ((∅ : Std.ExtTreeSet UInt32).insert 44) []).1.elems =
        [] ++ ts.map utf8 ∧
      (splitUtf8 (utf8 ['д', 'а', ',', ',', 'я']) ((∅ : Std.ExtTreeSet UInt32).insert 44) []).2 = false ∧
      (splitUtf8 (utf8 ['д', 'а', ',', ',', 'я']) ((∅ : Std.ExtTreeSet UInt32).insert 44) []).1.elem.inside =
        true ∧
      (splitUtf8 (utf8 ['д', 'а', ',', ',', 'я']) ((∅ : Std.ExtTreeSet UInt32).insert 44) []).1.elem.bytes.length =
        (utf8 ['д', 'а', ',', ',', 'я']).length + 1 :=
  splitUtf8_is_tokenisation _ (by decide +kernel) _ _

/-! ## Pairs of words -/

/-- The words of a text, between its spaces. -/
def wordsOf (cs : List Char) : List Bytes := (tokens (· == ' ') cs).map utf8

/-- Each word and the one behind it, with a space between them. -/
def pairs (words : List Bytes) : List Bytes :=
  List.zipWith (fun word next => word ++ [32] ++ next) words words.tail

variable {words bigrams : List Bytes} {i : Nat}

theorem wordsOf_eq_nil_iff : wordsOf cs = [] ↔ ∀ c ∈ cs, c = ' ' := by
  rw [wordsOf, List.map_eq_nil_iff, tokens_eq_nil_iff]
  simp

/-- The words that `getBigrams` gets from `splitUtf8`. -/
theorem splitUtf8_space (h0 : 0 ∉ utf8 cs) :
    (splitUtf8 (utf8 cs) ((∅ : Std.ExtTreeSet UInt32).insert 0x20) []).1.elems = wordsOf cs ∧
      (splitUtf8 (utf8 cs) ((∅ : Std.ExtTreeSet UInt32).insert 0x20) []).2 = false := by
  obtain ⟨helems, hthrew, -⟩ := splitUtf8_utf8 h0 ((∅ : Std.ExtTreeSet UInt32).insert 0x20) []
  have hdelim : tokens (isDelim ((∅ : Std.ExtTreeSet UInt32).insert 0x20)) cs = tokens (· == ' ') cs := by
    refine tokens_congr fun c _ => ?_
    have hempty : (∅ : Std.ExtTreeSet UInt32).contains c.val = false := Std.ExtTreeSet.contains_empty
    have hval : c = ' ' ↔ (0x20 : UInt32) = c.val := ⟨fun h => h ▸ rfl, fun h => Char.ext h.symm⟩
    rw [isDelim, Std.ExtTreeSet.contains_insert, hempty, Bool.or_false, Bool.eq_iff_iff, beq_iff_eq,
      beq_iff_eq, Std.LawfulEqCmp.compare_eq_iff_eq, hval]
  rw [hdelim, List.nil_append] at helems
  exact ⟨helems, hthrew⟩

/-- **The rounds of the loop that are left**, with at least one word. -/
theorem bigramsFrom_eq (hne : words ≠ []) (hi : i < words.length) (bigrams : List Bytes) :
    bigramsFrom words i bigrams = some (bigrams ++ pairs (words.drop i)) := by
  have hlast : lastIndex words = words.length - 1 := if_neg hne
  induction hn : words.length - 1 - i generalizing i bigrams with
  | zero =>
      have hdrop : words.drop i = [words[i]] := by
        rw [List.drop_eq_getElem_cons hi, List.drop_of_length_le (by omega)]
      rw [bigramsFrom, if_neg (by omega), hdrop]
      exact congrArg some (List.append_nil _).symm
  | succ n ih =>
      have hi' : i + 1 < words.length := by omega
      have hpairs : pairs (words.drop i) = (words[i] ++ [32] ++ words[i + 1]) :: pairs (words.drop (i + 1)) := by
        rw [List.drop_eq_getElem_cons hi, List.drop_eq_getElem_cons hi']
        rfl
      rw [bigramsFrom, if_pos (by omega), List.getElem?_eq_getElem hi, List.getElem?_eq_getElem hi']
      dsimp only
      rw [ih hi' _ (by omega), hpairs, List.append_assoc]
      rfl

/-- Without words the loop is entered, and indexes outside. -/
theorem bigramsFrom_nil (bigrams : List Bytes) : bigramsFrom [] 0 bigrams = none := by
  rw [bigramsFrom]
  rfl

theorem getBigrams_utf8 (h0 : 0 ∉ utf8 cs) (bigrams : List Bytes) :
    getBigrams (utf8 cs) bigrams =
      if wordsOf cs = [] then none else some (bigrams ++ pairs (wordsOf cs), false) := by
  obtain ⟨helems, hthrew⟩ := splitUtf8_space h0
  unfold getBigrams
  generalize splitUtf8 (utf8 cs) ((∅ : Std.ExtTreeSet UInt32).insert 0x20) [] = split at helems hthrew
  obtain ⟨st, threw⟩ := split
  obtain rfl : threw = false := hthrew
  dsimp only at helems ⊢
  rw [helems, if_neg Bool.false_ne_true]
  by_cases hne : wordsOf cs = []
  · rw [if_pos hne, hne, bigramsFrom_nil]
    rfl
  · rw [if_neg hne, bigramsFrom_eq hne (List.length_pos_iff.mpr hne)]
    rfl

/-- **When `getBigrams` finds the pairs of words**: if there is a word. Without one it indexes outside its
    words. -/
theorem getBigrams_iff (h0 : 0 ∉ utf8 cs) (bigrams : List Bytes) :
    getBigrams (utf8 cs) bigrams = some (bigrams ++ pairs (wordsOf cs), false) ↔ ∃ c ∈ cs, c ≠ ' ' := by
  have hwords : wordsOf cs ≠ [] ↔ ∃ c ∈ cs, c ≠ ' ' := by
    rw [Ne, wordsOf_eq_nil_iff]
    push Not
    rfl
  rw [getBigrams_utf8 h0, ← hwords]
  split
  · rename_i hnil
    exact iff_of_false (by simp) (not_not_intro hnil)
  · rename_i hne
    exact iff_of_true rfl hne

/-- `to be`. -/
theorem getBigrams_iff_words :
    getBigrams (utf8 ['t', 'o', ' ', 'b', 'e']) [] =
      some ([] ++ pairs (wordsOf ['t', 'o', ' ', 'b', 'e']), false) :=
  (getBigrams_iff (by decide +kernel) []).mpr ⟨'t', by decide, by decide⟩

/-- **No words**: the empty query, and one of spaces. -/
theorem getBigrams_no_words : getBigrams [] [] = none ∧ getBigrams (utf8 [' ', ' ']) [] = none := by
  have hnil : getBigrams (utf8 []) [] = none := by
    rw [getBigrams_utf8 (by decide +kernel)]
    rfl
  have hspaces : getBigrams (utf8 [' ', ' ']) [] = none := by
    rw [getBigrams_utf8 (by decide +kernel)]
    rfl
  exact ⟨hnil, hspaces⟩

end Strings
end Hiaux
