import Hiaux.Strings.Utf8

/-!
# `Strings.Utf8Repair` — replacing what is not UTF-8

`fix_utf8_string` and `utf8::replace_invalid`, which it calls. An iterator is what is behind it.
-/

namespace Hiaux
namespace Strings

open Lib Utf8

/-- `replacement_marker`. -/
def replacementMarker : UInt32 := 0xffff &&& 0xfffd

/-- `utf8::replace_invalid`: the bytes that are written. What has been written before it throws is not read. -/
def replaceInvalid (s : Bytes) (replacement : UInt32) : Except UtfError Bytes :=
  match s with
  | [] => .ok []
  | lead :: behind =>
      match _hnext : next (lead :: behind) with
      | .ok (_, rest) => do
          let out ← replaceInvalid rest replacement
          return (lead :: behind).take ((lead :: behind).length - rest.length) ++ out
      | .error .notEnoughRoom => throw .notEnoughRoom
      | .error .invalidLead => do
          let mark ← append replacement
          let out ← replaceInvalid behind replacement
          return mark ++ out
      | .error _ => do
          -- just one replacement mark for the sequence
          let mark ← append replacement
          let out ← replaceInvalid (behind.dropWhile isTrail) replacement
          return mark ++ out
termination_by s.length
decreasing_by
  · exact next_length_lt _hnext
  · exact Nat.lt_succ_self _
  · exact Nat.lt_succ_of_le (List.dropWhile_sublist isTrail).length_le

/-- `fix_utf8_string`, and what leaves it. -/
def fixUtf8String (str : Bytes) : Except UtfError Bytes :=
  match replaceInvalid str replacementMarker with
  | .ok temp => .ok temp
  | .error .notEnoughRoom => .ok str
  | .error e => .error e

end Strings
end Hiaux
