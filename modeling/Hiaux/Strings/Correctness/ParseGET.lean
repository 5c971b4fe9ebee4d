import Hiaux.Lib.LastWrite
import Hiaux.Strings.StringUtils

/-!
# `Strings.Correctness.ParseGET` — the scanner inside `parseGET`

`parseGET` walks over positions of the url and cuts texts out of it. Read character by character it is a
scanner that collects the text since the last separator (`Scanner`); the two agree, except at the end: a
separator that is the last character of the url is itself taken for the text behind it (`parseGET_eq`).
-/

namespace Hiaux
namespace Strings

open Lib

/-- The characters `parseGET` reacts to: `?`, `=` and `&`. -/
def isSeparator (c : UInt8) : Bool := c == 63 || c == 61 || c == 38

/-- The scanner: `cur` is the text since the last separator. -/
structure Scanner where
  state : UrlParserState
  cur : Bytes
  key : Bytes
  value : Bytes
  valuesGET : StrMap

namespace Scanner

/-- The scanner at the beginning. -/
def start (valuesGET : StrMap) : Scanner := ⟨.outside, [], [], [], valuesGET⟩

variable (unescape : Bytes → Bytes)

/-- One character. -/
def step (g : Scanner) (c : UInt8) : Scanner :=
  if c = 63 then { g with state := .key, cur := [] }
  else if c = 61 then { g with state := .value, key := g.cur, cur := [] }
  else if c = 38 then
    { g with
      state := .key
      value := unescape g.cur
      valuesGET := g.valuesGET.insert g.key (unescape g.cur)
      cur := [] }
  else { g with cur := g.cur ++ [c] }

/-- The parameters after the end of the url, where `rest` is the text taken to be behind the last
    separator. -/
def finish (g : Scanner) (rest : Bytes) : StrMap :=
  match g.state with
  | .key => g.valuesGET.insert rest (unescape [])
  | .value => g.valuesGET.insert g.key (unescape rest)
  | .outside => g.valuesGET.insert g.key (unescape g.value)

/-- The text behind the last separator, as `parseGET` cuts it out. -/
def restOf (g : Scanner) (data : Bytes) : Bytes :=
  match data.getLast? with
  | some c => if isSeparator c then [c] else g.cur
  | none => []

theorem step_plain {c : UInt8} (g : Scanner) (hc : isSeparator c = false) :
    step unescape g c = { g with cur := g.cur ++ [c] } := by
  simp only [isSeparator, Bool.or_eq_false_iff, beq_eq_false_iff_ne] at hc
  rw [step, if_neg hc.1.1, if_neg hc.1.2, if_neg hc.2]

end Scanner

/-! ## `parseGET` is the scanner -/

section

variable (curlUnescape : Bytes → Bytes)

/-- What `parseGET` does to a value. -/
def unescapeTwice (s : Bytes) : Bytes := unescapeUrl curlUnescape (unescapeUrl curlUnescape s)

/-- The locals of `parseGET` before position `i`, and the scanner that has read `i` characters. -/
structure Scans (data : Bytes) (i : Nat) (g : GetScan) (s : Scanner) : Prop where
  state : g.state = s.state
  key : g.key = s.key
  value : g.value = s.value
  valuesGET : g.valuesGET = s.valuesGET
  sbeg : g.sbeg ≤ i
  cur : substr data g.sbeg (i - g.sbeg) = s.cur

variable {curlUnescape} {data : Bytes} {i : Nat} {g : GetScan} {s : Scanner}

/-- A character that is no separator is added to the text since the last one. -/
theorem substr_succ {c : UInt8} {sbeg : Nat} (hc : data[i]? = some c) (h : sbeg ≤ i) :
    substr data sbeg (i + 1 - sbeg) = substr data sbeg (i - sbeg) ++ [c] := by
  have hsub : i + 1 - sbeg = i - sbeg + 1 := by omega
  have hget : (data.drop sbeg)[i - sbeg]? = some c := by
    rw [List.getElem?_drop, Nat.add_sub_cancel' h, hc]
  rw [hsub, substr, List.take_add_one, hget]
  rfl

/-- A round of the loop, at a position that is not the last one. -/
theorem Scans.step {c : UInt8} (h : Scans data i g s) (hc : data[i]? = some c) (hlast : i + 1 ≠ data.length) :
    Scans data (i + 1) (parseGETStep curlUnescape data g i)
      (Scanner.step (unescapeTwice curlUnescape) s c) := by
  have hempty : substr data (i + 1) (i + 1 - (i + 1)) = [] := by simp [substr]
  simp only [parseGETStep, Scanner.step, hc, Option.some.injEq, if_pos hlast]
  split
  · exact ⟨rfl, h.key, h.value, h.valuesGET, Nat.le_refl _, hempty⟩
  · split
    · exact ⟨rfl, h.cur, h.value, h.valuesGET, Nat.le_refl _, hempty⟩
    · split
      · rw [h.cur, h.key, h.valuesGET]
        exact ⟨rfl, rfl, rfl, rfl, Nat.le_refl _, hempty⟩
      · refine ⟨h.state, h.key, h.value, h.valuesGET, Nat.le_succ_of_le h.sbeg, ?_⟩
        rw [substr_succ hc h.sbeg, h.cur]

variable (curlUnescape) in
/-- All rounds before the last. -/
theorem scans_range (valuesGET : StrMap) (init : Bytes) (c : UInt8) {n : Nat} (hn : n ≤ init.length) :
    Scans (init ++ [c]) n
      ((List.range n).foldl (parseGETStep curlUnescape (init ++ [c])) ⟨.outside, 0, [], [], valuesGET⟩)
      ((init.take n).foldl (Scanner.step (unescapeTwice curlUnescape)) (.start valuesGET)) := by
  induction n with
  | zero => exact ⟨rfl, rfl, rfl, rfl, Nat.le_refl _, by simp [substr, Scanner.start]⟩
  | succ n ih =>
      have hget : init[n]? = some init[n] := List.getElem?_eq_getElem (by omega)
      have happ : (init ++ [c])[n]? = some init[n] := by
        rw [List.getElem?_append_left (by omega), hget]
      rw [List.range_succ, List.foldl_append, List.take_add_one, hget, List.foldl_append]
      exact (ih (by omega)).step happ (by simp; omega)

/-- The end of `parseGET`, for a text that was taken for the one behind the last separator. -/
def finishGET (curlUnescape : Bytes → Bytes) (g : GetScan) (rest : Bytes) : StrMap :=
  let key := if g.state = .key then rest else g.key
  let value := match g.state with
    | .value => rest
    | .key => []
    | .outside => g.value
  g.valuesGET.insert key (unescapeTwice curlUnescape value)

theorem finishGET_eq (hstate : g.state = s.state) (hkey : g.key = s.key) (hvalue : g.value = s.value)
    (hvalues : g.valuesGET = s.valuesGET) {rest : Bytes} :
    finishGET curlUnescape g rest = s.finish (unescapeTwice curlUnescape) rest := by
  simp only [finishGET, Scanner.finish, hstate, hkey, hvalue, hvalues]
  cases s.state <;> rfl

variable (curlUnescape) in
/-- The last round: a separator is taken for the text behind it. -/
theorem Scans.last {c : UInt8} (h : Scans data i g s) (hc : data[i]? = some c) (hlast : i + 1 = data.length) :
    finishGET curlUnescape (parseGETStep curlUnescape data g i)
        (substr data (parseGETStep curlUnescape data g i).sbeg
          (data.length - (parseGETStep curlUnescape data g i).sbeg)) =
      (Scanner.step (unescapeTwice curlUnescape) s c).finish (unescapeTwice curlUnescape)
        (if isSeparator c then [c] else (Scanner.step (unescapeTwice curlUnescape) s c).cur) := by
  have hlen : data.length - i = 1 := by omega
  have hrest : substr data i (data.length - i) = [c] := by
    rw [hlen, ← Nat.add_sub_cancel_left i 1, substr_succ hc (Nat.le_refl i), Nat.sub_self]
    simp [substr]
  have hnot : ¬ (i + 1 ≠ data.length) := not_not.mpr hlast
  simp only [parseGETStep, Scanner.step, hc, Option.some.injEq, if_neg hnot]
  split
  · rename_i heq
    subst heq
    rw [hrest, if_pos (by decide)]
    apply finishGET_eq
    exacts [rfl, h.key, h.value, h.valuesGET]
  · split
    · rename_i heq
      subst heq
      rw [hrest, if_pos (by decide)]
      apply finishGET_eq
      exacts [rfl, h.cur, h.value, h.valuesGET]
    · split
      · rename_i heq
        subst heq
        rw [hrest, if_pos (by decide), h.cur, h.key, h.valuesGET]
        exact finishGET_eq rfl rfl rfl rfl
      · rename_i h63 h61 h38
        have hsep : isSeparator c = false := by simp [isSeparator, h63, h61, h38]
        rw [hsep, if_neg Bool.false_ne_true, ← hlast, substr_succ hc h.sbeg, h.cur]
        exact finishGET_eq h.state h.key h.value h.valuesGET

/-- **`parseGET` is the scanner**, with its own idea of the text behind the last separator. -/
theorem parseGET_eq (data : Bytes) (valuesGET : StrMap) :
    parseGET curlUnescape data valuesGET =
      (data.foldl (Scanner.step (unescapeTwice curlUnescape)) (.start valuesGET)).finish
        (unescapeTwice curlUnescape)
        ((data.foldl (Scanner.step (unescapeTwice curlUnescape)) (.start valuesGET)).restOf data) := by
  rcases List.eq_nil_or_concat data with rfl | ⟨init, c, rfl⟩
  · rfl
  · rw [List.concat_eq_append]
    have hscan := scans_range curlUnescape valuesGET init c (Nat.le_refl init.length)
    rw [List.take_length] at hscan
    have hget : (init ++ [c])[init.length]? = some c := by simp
    have hlen : init.length + 1 = (init ++ [c]).length := by simp
    have hlast := hscan.last curlUnescape hget hlen
    have hrange : List.range (init ++ [c]).length = List.range init.length ++ [init.length] := by
      rw [← hlen, List.range_succ]
    show finishGET curlUnescape _ _ = _
    rw [hrange, List.foldl_append, List.foldl_append, Scanner.restOf, List.getLast?_concat]
    exact hlast

end

end Strings
end Hiaux
