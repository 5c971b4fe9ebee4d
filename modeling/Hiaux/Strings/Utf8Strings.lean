import Std.Data.ExtTreeSet
import Hiaux.Lib.CharBuffer
import Hiaux.Strings.Utf8

/-!
# `Strings.Utf8Strings` — the string helpers that read UTF-8

`splitUtf8`, `splitIntoTwoUtf8`, `getPrefixesUtf8`, `eraseNonCharsUtf8`, `toLowerUtf8` and `replaceCharUtf8` read
a string code point by code point and write what they make of it into arrays of one byte more than the string
has. `splitUtf8` lets exceptions through; the others stop at the first one and keep what they have written.
`getBigrams` pairs the words that `splitUtf8` finds.
-/

namespace Hiaux
namespace Strings

open Lib Utf8

/-! ## The loop -/

/-- `do { symbol = utf8::next(it, end); body } while (it < end)`, and whether an exception has left it. -/
def forSymbols {σ : Type} (body : UInt32 → σ → Except UtfError σ) (s : Bytes) (st : σ) : σ × Bool :=
  match _hnext : next s with
  | .error _ => (st, true)
  | .ok (symbol, rest) =>
      match body symbol st with
      | .error _ => (st, true)
      | .ok st' => if rest = [] then (st', false) else forSymbols body rest st'
termination_by s.length
decreasing_by exact next_length_lt _hnext

/-! ## Splitting -/

/-- `elem`, and `_elems`. -/
structure SplitUtf8 where
  elem : CharBuffer
  elems : List Bytes

/-- `if (elem != elem_end) _elems.push_back(std::string(elem))`. -/
def SplitUtf8.push (st : SplitUtf8) : SplitUtf8 :=
  if st.elem.pos ≠ 0 then ⟨st.elem.read, st.elems ++ [st.elem.text]⟩ else st

/-- One round of the loop of `splitUtf8`, for a string of `size` bytes. -/
def splitUtf8Step (delims : Std.ExtTreeSet UInt32) (size : Nat) (symbol : UInt32) (st : SplitUtf8) :
    Except UtfError SplitUtf8 :=
  if delims.contains symbol then .ok { st.push with elem := st.push.elem.clear size }
  else (append symbol).map (fun bs => { st with elem := st.elem.writeAll bs })

/-- `splitUtf8`, and whether an exception has left it. For the empty string there is no array. -/
def splitUtf8 (s : Bytes) (delims : Std.ExtTreeSet UInt32) (elems : List Bytes) : SplitUtf8 × Bool :=
  let start : SplitUtf8 := ⟨.zeroed (s.length + 1), elems⟩
  if s = [] then (start, false)
  else
    let (st, threw) := forSymbols (splitUtf8Step delims s.length) s start
    if threw then (st, true) else (st.push, false)

/-! ## Pairs of words -/

/-- `words.size()-1`, which wraps around for no words. -/
def lastIndex (words : List Bytes) : Nat := if words = [] then 2 ^ 64 - 1 else words.length - 1

/-- The loop of `getBigrams`; `none` if an index is outside the words. -/
def bigramsFrom (words : List Bytes) (i : Nat) (bigrams : List Bytes) : Option (List Bytes) :=
  if i < lastIndex words then
    match words[i]?, words[i + 1]? with
    | some word, some next => bigramsFrom words (i + 1) (bigrams ++ [word ++ [32] ++ next])
    | _, _ => none
  else some bigrams
termination_by lastIndex words - i

/-- `getBigrams`: what is then in `bigrams`, and whether an exception has left it. -/
def getBigrams (q : Bytes) (bigrams : List Bytes) : Option (List Bytes × Bool) :=
  let (st, threw) := splitUtf8 q ((∅ : Std.ExtTreeSet UInt32).insert 0x20) []
  if threw then some (bigrams, true) else (bigramsFrom st.elems 0 bigrams).map (fun bigrams => (bigrams, false))

/-! ## Rewriting -/

/-- What `toLowerUtf8` and its like leave: the string, and the array `res` they wrote it into. -/
structure Rewritten where
  value : Bytes
  res : CharBuffer

/-- One round of the loop of a helper that writes something for every code point. -/
def rewriteUtf8Step (write : UInt32 → Except UtfError Bytes) (symbol : UInt32) (res : CharBuffer) :
    Except UtfError CharBuffer :=
  (write symbol).map res.writeAll

/-- The helpers that write something for every code point of a string and read it back as a C string. For the
    empty string there is no array. -/
def rewriteUtf8 (write : UInt32 → Except UtfError Bytes) (s : Bytes) : Rewritten :=
  let start := CharBuffer.zeroed (s.length + 1)
  if s = [] then ⟨s, start⟩
  else
    let (res, _) := forSymbols (rewriteUtf8Step write) s start
    ⟨res.text, res.read⟩

/-- `isUtf8Char`. -/
def isUtf8Char (c : UInt32) : Bool :=
  if 0x41 ≤ c && c ≤ 0x5a then true
  else if 0x61 ≤ c && c ≤ 0x7a then true
  else if 0x410 ≤ c && c ≤ 0x42F then true
  else if 0x430 ≤ c && c ≤ 0x44f then true
  else false

/-- `eraseNonCharsUtf8`. -/
def eraseNonCharsUtf8 (s : Bytes) : Rewritten :=
  rewriteUtf8 (fun symbol => if isUtf8Char symbol then append symbol else .ok []) s

/-- `toLowerCharUtf8`. -/
def toLowerCharUtf8 (c : UInt32) : UInt32 :=
  if 0x41 ≤ c && c ≤ 0x5a then c + 0x61 - 0x41
  else if 0x410 ≤ c && c ≤ 0x42F then c + 0x430 - 0x410
  else c

/-- `toLowerUtf8`. -/
def toLowerUtf8 (s : Bytes) : Rewritten := rewriteUtf8 (fun symbol => append (toLowerCharUtf8 symbol)) s

/-- `replaceCharUtf8`. -/
def replaceCharUtf8 (value : Bytes) (what to' : UInt32) : Rewritten :=
  rewriteUtf8 (fun symbol => if symbol == what then append to' else append symbol) value

/-! ## Cutting -/

/-- `first`, and the arrays `f` and `s` of `splitIntoTwoUtf8`. -/
structure TwoArrays where
  first : Bool
  f : CharBuffer
  s : CharBuffer

/-- One round of the loop of `splitIntoTwoUtf8`. -/
def splitIntoTwoStep (delim symbol : UInt32) (st : TwoArrays) : Except UtfError TwoArrays :=
  if st.first && symbol == delim then .ok { st with first := false }
  else if st.first then (append symbol).map (fun bs => { st with f := st.f.writeAll bs })
  else (append symbol).map (fun bs => { st with s := st.s.writeAll bs })

/-- What `splitIntoTwoUtf8` leaves in `_f` and `_s`, and the arrays they were read from. -/
structure TwoParts where
  f : Bytes
  s : Bytes
  arrays : TwoArrays

/-- `splitIntoTwoUtf8`. For the empty string there are no arrays. -/
def splitIntoTwoUtf8 (v : Bytes) (delim : UInt32) (f s : Bytes) : TwoParts :=
  let start : TwoArrays := ⟨true, .zeroed (v.length + 1), .zeroed (v.length + 1)⟩
  if v = [] then ⟨f, s, start⟩
  else
    let (st, _) := forSymbols (splitIntoTwoStep delim) v start
    ⟨st.f.text, st.s.text, { st with f := st.f.read, s := st.s.read }⟩

/-! ## Prefixes -/

/-- `res`, and `_prefixes`. -/
structure PrefixesUtf8 where
  res : CharBuffer
  prefixes : List Bytes

/-- One round of the loop of `getPrefixesUtf8`. -/
def getPrefixesStep (symbol : UInt32) (st : PrefixesUtf8) : Except UtfError PrefixesUtf8 :=
  (append symbol).map (fun bs =>
    let res := st.res.writeAll bs
    ⟨res.read, st.prefixes ++ [res.text]⟩)

/-- `getPrefixesUtf8`. For the empty string there is no array. -/
def getPrefixesUtf8 (word : Bytes) (prefixes : List Bytes) : PrefixesUtf8 :=
  let start : PrefixesUtf8 := ⟨.zeroed (word.length + 1), prefixes⟩
  if word = [] then start else (forSymbols getPrefixesStep word start).1

end Strings
end Hiaux
