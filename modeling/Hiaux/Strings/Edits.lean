import Hiaux.Lib.Replacement
import Hiaux.Strings.StringUtils

/-!
# `Strings.Edits` — strings edited in place

`removeLeadingAndEndingSpaces` and `getPairGET`, which uses it, `removeRedundantDelimeters`, `replaceString`
and `escape_symbol`. A helper that reads outside its string, or moves its position past the end, has no result.
-/

namespace Hiaux
namespace Strings

open Lib

/-! ## Spaces -/

/-- `s[i]`. At `s.size()` stands the terminating NUL; there is nothing behind it. -/
def charAt (s : Bytes) (i : Nat) : Option UInt8 := (s ++ [0])[i]?

/-- The loop of `removeLeadingSpaces`: where `last_leading_space_pos` ends up. -/
def skipLeadingSpaces (s : Bytes) (pos : Nat) : Option Nat :=
  match charAt s pos with
  | none => none
  | some c => if _h : c = 32 ∧ pos < s.length then skipLeadingSpaces s (pos + 1) else some pos
termination_by s.length - pos

/-- `removeLeadingSpaces`. -/
def removeLeadingSpaces (s : Bytes) : Option Bytes :=
  match charAt s 0 with
  | none => none
  | some c =>
      if c ≠ 32 then some s else (skipLeadingSpaces s 0).map (fun pos => substr s pos (s.length - pos))

/-- The loop of `removeEndingSpaces`, downwards. It looks at the first character, but does not go below it. -/
def skipEndingSpaces (s : Bytes) : Nat → Option Nat
  | 0 => (charAt s 0).map (fun _ => 0)
  | pos + 1 =>
      match charAt s (pos + 1) with
      | none => none
      | some c => if c = 32 then skipEndingSpaces s pos else some (pos + 1)

/-- `removeEndingSpaces`. What stays is the text before `last_leading_space_pos`. In an empty string
    `s.size()-1` wraps around, and the index is outside. -/
def removeEndingSpaces (s : Bytes) : Option Bytes :=
  match s.length with
  | 0 => none
  | last + 1 =>
      match charAt s last with
      | none => none
      | some c => if c ≠ 32 then some s else (skipEndingSpaces s last).map (fun pos => substr s 0 pos)

/-- `removeLeadingAndEndingSpaces`. -/
def removeLeadingAndEndingSpaces (s : Bytes) : Option Bytes := (removeLeadingSpaces s).bind removeEndingSpaces

/-- `getPairGET`: the value returned, and what is then in `kv`. -/
def getPairGET (curlUnescape : Bytes → Bytes) (s : Bytes) (kv : Bytes × Bytes) : Option (Bool × (Bytes × Bytes)) :=
  match find 61 s with
  | none => some (false, kv)
  | some eqSymPos =>
      (removeLeadingAndEndingSpaces (substr s 0 eqSymPos)).bind fun key =>
        (removeLeadingAndEndingSpaces (substr s (eqSymPos + 1) (s.length - eqSymPos))).map fun value =>
          (true, unescapeUrl curlUnescape key, unescapeUrl curlUnescape value)

/-! ## Delimiters -/

/-- `isDelimeter`: a tab or a newline. -/
def isDelimeter (c : UInt8) : Bool := c == 9 || c == 10

/-- The loop of `removeRedundantDelimeters`: the iterator is the position `it` in `s`. It is advanced behind an
    `erase` too, and a position past the end is not the end. -/
def removeRedundantFrom (s : Bytes) (it : Nat) (prevDelim : Bool) : Option Bytes :=
  if it = s.length then some s
  else
    match h : s[it]? with
    | none => none
    | some c =>
        if isDelimeter c then
          if prevDelim then removeRedundantFrom (s.eraseIdx it) (it + 1) prevDelim
          else removeRedundantFrom s (it + 1) true
        else removeRedundantFrom s (it + 1) false
termination_by s.length - it
decreasing_by
  all_goals have hlt := (List.getElem?_eq_some_iff.mp h).1
  · rw [List.length_eraseIdx_of_lt hlt]
    omega
  · omega
  · omega

/-- `removeRedundantDelimeters`. -/
def removeRedundantDelimeters (s : Bytes) : Option Bytes := removeRedundantFrom s 0 false

/-! ## Replacing -/

/-- `replaceString`, with a bound on the number of searches: `none` if the loop is not over by then. -/
def replaceString (what to' : Bytes) : Nat → Bytes → Option Bytes
  | 0, _ => none
  | fuel + 1, str =>
      match findWord what str with
      | none => some str
      | some p => replaceString what to' fuel (str.take p ++ to' ++ str.drop (p + what.length))

/-! ## Escaping a symbol -/

/-- `escape_symbol`: `bf` is what has been written, and it is read back as a C string. -/
def escapeSymbol (str : Bytes) (sym : UInt8) : Bytes :=
  cStr (str.foldl (fun bf c => if c = sym then bf ++ [92, sym] else bf ++ [c]) [])

/-- `escape_quote`. -/
def escapeQuote (str : Bytes) : Bytes := escapeSymbol str 39

/-- `add_newline_backslash`. -/
def addNewlineBackslash (str : Bytes) : Bytes := escapeSymbol str 10

end Strings
end Hiaux
