import Hiaux.Lib.Escapes
import Hiaux.Strings.Edits

/-!
# `Strings.Correctness.Quoting` — what `escape_symbol` makes safe

`escape_symbol` puts a backslash before the symbol, but not before a backslash. A backslash that the string has
itself is then read as the escape of the character behind it, and before the symbol it is the inserted backslash
that becomes literal, so that the symbol stands bare.
-/

namespace Hiaux
namespace Strings

open Lib

variable {s : Bytes} {sym : UInt8}

/-- The loop of `escape_symbol`. -/
theorem foldl_escapeSymbol (sym : UInt8) (bf s : Bytes) :
    s.foldl (fun bf c => if c = sym then bf ++ [92, sym] else bf ++ [c]) bf = bf ++ escapes 92 sym s := by
  induction s generalizing bf with
  | nil => exact (List.append_nil bf).symm
  | cons c s ih =>
      rw [List.foldl_cons, ih]
      split
      · rename_i hc
        rw [hc, escapes_sym, List.append_assoc]
        rfl
      · rename_i hc
        rw [escapes_other hc, List.append_assoc]
        rfl

/-- A NUL-free string is written whole. -/
theorem escapeSymbol_eq (h0 : 0 ∉ s) (sym : UInt8) : escapeSymbol s sym = escapes 92 sym s := by
  unfold escapeSymbol
  rw [foldl_escapeSymbol, List.nil_append, cStr_eq_self_iff]
  intro hmem
  exact (mem_escapes hmem).elim (fun h => absurd h (by decide)) h0

theorem readEscapes_escapeSymbol_iff (h0 : 0 ∉ s) (hsym : sym ≠ 92) :
    readEscapes 92 sym (escapeSymbol s sym) = some s ↔ 92 ∉ s := by
  rw [escapeSymbol_eq h0, readEscapes_escapes_iff hsym]

/-- **Which strings come back from their escaped form**: those without a backslash. -/
theorem escapeSymbol_iff (h0 : 0 ∉ s) :
    (∀ sym, sym ≠ 92 → (readEscapes 92 sym (escapeSymbol s sym) = some s ↔ 92 ∉ s)) ∧
      (readEscapes 92 39 (escapeQuote s) = some s ↔ 92 ∉ s) ∧
      (readEscapes 92 10 (addNewlineBackslash s) = some s ↔ 92 ∉ s) := by
  refine ⟨fun sym hsym => readEscapes_escapeSymbol_iff h0 hsym, ?_, ?_⟩
  · exact readEscapes_escapeSymbol_iff h0 (by decide)
  · exact readEscapes_escapeSymbol_iff h0 (by decide)

/-- `it's`. -/
theorem escapeSymbol_iff_quote : readEscapes 92 39 (escapeQuote (ascii "it's")) = some (ascii "it's") :=
  (escapeSymbol_iff (by decide +kernel)).2.1.mpr (by decide +kernel)

/-- **A quote behind a backslash stands bare**: `\'` is written as `\\'`. A backslash before another character is
    lost. -/
theorem escapeQuote_backslash :
    escapeQuote [92, 39] = [92, 92, 39] ∧ readEscapes 92 39 (escapeQuote [92, 39]) = none ∧
      readEscapes 92 39 (escapeQuote [92, 110]) = some [110] := by
  decide +kernel

end Strings
end Hiaux
