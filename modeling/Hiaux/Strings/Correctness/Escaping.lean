import Hiaux.Strings.Correctness.Parameters

/-!
# `Strings.Correctness.Escaping` — escaped values in a query

`escapeUrl` and `unescapeUrl` undo each other, but `parseGET` unescapes a value twice. A value that was escaped
once is unescaped once too often (`parseGET_escaped`); it comes back exactly if its own text has no escapes.
-/

namespace Hiaux
namespace Strings

open Lib

variable {curlEscape curlUnescape : Bytes → Bytes}

/-- The bytes of an escaped text: no separators, and no NUL. -/
theorem percentEncode_plain (v : Bytes) : ∀ c ∈ percentEncode isUnreserved v, isSeparator c = false ∧ c ≠ 0 := by
  have hall : ∀ c ∈ percentEncode isUnreserved v, (!isSeparator c && c != 0) = true := by
    refine forall_mem_percentEncode (fun b hb => ?_) (by decide) (by decide)
    obtain ⟨hsep, -, h0⟩ := isUnreserved_plain hb
    simp [hsep, h0]
  intro c hc
  simpa using hall c hc

section

variable (hescape : ∀ s, curlEscape s = percentEncode isUnreserved s)
include hescape

/-- Nothing is cut off an escaped text. -/
theorem escapeUrl_eq (v : Bytes) : escapeUrl curlEscape v = percentEncode isUnreserved v := by
  rw [escapeUrl, hescape, cStr_eq_self_iff]
  exact fun h0 => (percentEncode_plain v 0 h0).2 rfl

theorem escapeUrl_ne_nil {v : Bytes} (hv : v ≠ []) : escapeUrl curlEscape v ≠ [] := by
  obtain ⟨b, s, rfl⟩ := List.exists_cons_of_ne_nil hv
  rw [escapeUrl_eq hescape, percentEncode, List.flatMap_cons]
  split <;> simp [escapeByte]

variable (hcurl : ∀ s, curlUnescape s = percentDecode s)
include hcurl

/-- **`unescapeUrl` takes `escapeUrl` back.** -/
theorem unescapeUrl_escapeUrl {v : Bytes} (h0 : 0 ∉ v) :
    unescapeUrl curlUnescape (escapeUrl curlEscape v) = v := by
  rw [escapeUrl_eq hescape, unescapeUrl, hcurl, percentDecode_percentEncode (by decide),
    cStr_eq_self_iff.mpr h0]

/-- **What `parseGET` makes of an escaped value**: the value, unescaped. -/
theorem parseGET_escaped {k v : Bytes} (hkey : ∀ c ∈ k, isUnreserved c = true) (hv : v ≠ []) (h0 : 0 ∉ v) :
    parseGET curlUnescape (47 :: 63 :: (k ++ 61 :: escapeUrl curlEscape v)) ∅ =
      (∅ : StrMap).insert k (unescapeUrl curlUnescape v) := by
  have hclean : ∀ q ∈ [(k, escapeUrl curlEscape v)], SeparatorFree q.1 ∧ SeparatorFree q.2 := by
    intro q hq
    obtain rfl := List.mem_singleton.mp hq
    refine ⟨fun c hc => (isUnreserved_plain (hkey c hc)).1, ?_⟩
    show SeparatorFree (escapeUrl curlEscape v)
    rw [escapeUrl_eq hescape]
    exact fun c hc => (percentEncode_plain v c hc).1
  have hquery : 47 :: 63 :: (k ++ 61 :: escapeUrl curlEscape v) =
      [47] ++ queryOf (k, escapeUrl curlEscape v) [] := by
    simp [queryOf, entry]
  have hpath : SeparatorFree [47] := fun c hc => List.mem_singleton.mp hc ▸ rfl
  rw [hquery, parseGET_append_queryOf hpath, parseGET_queryOf_assignAll _ _ hclean
    (escapeUrl_ne_nil hescape hv)]
  show (∅ : StrMap).insert k (unescapeUrl curlUnescape (unescapeUrl curlUnescape _)) = _
  rw [unescapeUrl_escapeUrl hescape hcurl h0]

end

theorem insert_empty_inj {k v w : Bytes} : (∅ : StrMap).insert k v = (∅ : StrMap).insert k w ↔ v = w := by
  constructor
  · intro h
    have hget := congrArg (fun m : StrMap => m[k]?) h
    simpa using hget
  · exact fun h => congrArg _ h

/-- **Which values survive escaping**: those whose own text has no escapes. -/
theorem parseGET_escaped_iff (hescape : ∀ s, curlEscape s = percentEncode isUnreserved s)
    (hcurl : ∀ s, curlUnescape s = percentDecode s) {k v : Bytes} (hkey : ∀ c ∈ k, isUnreserved c = true)
    (hv : v ≠ []) (h0 : 0 ∉ v) :
    parseGET curlUnescape (47 :: 63 :: (k ++ 61 :: escapeUrl curlEscape v)) ∅ = (∅ : StrMap).insert k v ↔
      escapeFree v = true := by
  rw [parseGET_escaped hescape hcurl hkey hv h0, insert_empty_inj, unescapeUrl_eq_self_iff hcurl]
  exact and_iff_left h0

/-- `a b&c` comes back. -/
theorem parseGET_escaped_words :
    parseGET percentDecode (47 :: 63 :: (ascii "q" ++ 61 :: escapeUrl (percentEncode isUnreserved)
      (ascii "a b&c"))) ∅ = (∅ : StrMap).insert (ascii "q") (ascii "a b&c") :=
  (parseGET_escaped_iff (fun _ => rfl) (fun _ => rfl) (by decide +kernel) (by decide +kernel)
    (by decide +kernel)).mpr (by decide +kernel)

/-- **A value that looks like an escape**: `%41` comes back as `A`. -/
theorem parseGET_escaped_percent :
    parseGET percentDecode (47 :: 63 :: (ascii "q" ++ 61 :: escapeUrl (percentEncode isUnreserved)
        (ascii "%41"))) ∅ = (∅ : StrMap).insert (ascii "q") (ascii "A") ∧
      parseGET percentDecode (47 :: 63 :: (ascii "q" ++ 61 :: escapeUrl (percentEncode isUnreserved)
        (ascii "%41"))) ∅ ≠ (∅ : StrMap).insert (ascii "q") (ascii "%41") := by
  have hA : unescapeUrl percentDecode (ascii "%41") = ascii "A" := by decide +kernel
  rw [parseGET_escaped (fun _ => rfl) (fun _ => rfl) (by decide +kernel) (by decide +kernel)
    (by decide +kernel), hA]
  exact ⟨rfl, fun h => absurd (insert_empty_inj.mp h) (by decide +kernel)⟩

end Strings
end Hiaux
