import Hiaux.Lib.LastWrite
import Hiaux.Lib.Tokens
import Hiaux.Strings.Correctness.Queries

/-!
# `Strings.Correctness.Tokens` — what `split` finds, and what `parseCookies` reads

`split` cuts a text by one delimiter after the other and drops empty tokens before each pass and at the end.
After each pass, the tokens that are not empty are the maximal runs for the delimiters so far
(`filter_pass`). A cookie header is cut into its cookies this way.
-/

namespace Hiaux
namespace Strings

open Lib

/-! ## `split` -/

/-- The non-empty lines of `std::getline` are the maximal runs. -/
theorem filter_getlines (delim : UInt8) (item s : Bytes) :
    (getlines delim item s).filter (· ≠ []) = tokensFrom (· == delim) item s := by
  have hemit : ∀ (item : Bytes) (ts : List Bytes), (item :: ts).filter (· ≠ []) = emit item (ts.filter (· ≠ [])) := by
    intro item ts
    cases item <;> simp [emit]
  induction s generalizing item with
  | nil =>
      rw [getlines, tokensFrom]
      cases item <;> simp [emit]
  | cons c s ih =>
      rw [getlines, tokensFrom]
      by_cases hc : c = delim
      · rw [if_pos hc, if_pos (by simp [hc]), hemit, ih]
      · rw [if_neg hc, if_neg (by simp [hc]), ih]

/-- One pass of `split`. -/
def pass (ts : List Bytes) (d : UInt8) : List Bytes := ts.flatMap (fun t => if t ≠ [] then split t d else [])

/-- **A pass** cuts the tokens that are not empty. -/
theorem filter_pass (ts : List Bytes) (d : UInt8) :
    (pass ts d).filter (· ≠ []) = (ts.filter (· ≠ [])).flatMap (tokens (· == d)) := by
  induction ts with
  | nil => rfl
  | cons t ts ih =>
      rw [pass, List.flatMap_cons, ← pass, List.filter_append, ih]
      cases t with
      | nil => rfl
      | cons c t =>
          rw [if_pos (List.cons_ne_nil c t), split, filter_getlines,
            List.filter_cons_of_pos (by simp), List.flatMap_cons]
          rfl

theorem filter_foldl_pass (delims : List UInt8) {delim : UInt8 → Bool} {s : Bytes} (ts : List Bytes)
    (hts : ts.filter (· ≠ []) = tokens delim s) :
    (delims.foldl pass ts).filter (· ≠ []) = tokens (fun c => delim c || delims.contains c) s := by
  induction delims generalizing ts delim with
  | nil =>
      rw [List.foldl_nil, hts]
      exact tokens_congr fun c _ => by simp
  | cons d delims ih =>
      have hpass : (pass ts d).filter (· ≠ []) = tokens (fun c => delim c || c == d) s := by
        rw [filter_pass, hts, flatMap_tokens]
      rw [List.foldl_cons, ih (pass ts d) hpass]
      refine tokens_congr fun c _ => ?_
      rw [Bool.or_assoc, List.contains_cons]

/-- `split` by all delimiters, read in one pass. -/
theorem splitAll_eq_tokens (s : Bytes) (delims : List UInt8) :
    splitAll s delims = tokens (fun c => delims.contains c) s := by
  have hstart : [s].filter (· ≠ []) = tokens (fun _ => false) s := by
    rw [tokens_of_plain fun _ _ => rfl]
    cases s <;> rfl
  have hall := filter_foldl_pass delims [s] hstart
  simp only [Bool.false_or] at hall
  exact hall

/-- **`split` is tokenisation.** It appends the maximal non-empty runs of characters that are no delimiters,
    in their order; it does not matter in which order the delimiters are given, and how often. -/
theorem split_is_tokenisation (s : Bytes) (delims : List UInt8) (elems : List Bytes) :
    (∃ ts, splitInto s delims elems = elems ++ ts ∧ Tokenizes (fun c => delims.contains c) s ts) ∧
      ∀ delims', (∀ d, d ∈ delims' ↔ d ∈ delims) → splitInto s delims' elems = splitInto s delims elems := by
  refine ⟨⟨splitAll s delims, rfl, ?_⟩, fun delims' hsame => ?_⟩
  · rw [splitAll_eq_tokens]
    exact tokenizes_iff.mpr rfl
  · rw [splitInto, splitInto, splitAll_eq_tokens, splitAll_eq_tokens]
    simp only [List.contains_eq_mem, hsame]

/-- By commas and semicolons, or by semicolons and commas. -/
theorem split_is_tokenisation_swapped :
    splitInto (ascii ",a;;bc, ;d") [59, 44, 59] [] = splitInto (ascii ",a;;bc, ;d") [44, 59] [] :=
  (split_is_tokenisation (ascii ",a;;bc, ;d") [44, 59] []).2 [59, 44, 59] fun d => by
    simp only [List.mem_cons, List.not_mem_nil, or_false]
    tauto

example : splitInto (ascii ",a;;bc, ;d") [44, 59] [ascii "x"] =
    [ascii "x", ascii "a", ascii "bc", ascii " ", ascii "d"] := by decide +kernel

/-! ## Cookies -/

/-- A cookie header: the cookies as `name=value`, with `sep` between them. -/
def cookieHeader (sep : Bytes) (cookies : List (Bytes × Bytes)) : Bytes := sep.intercalate (cookies.map entry)

/-- A cookie that can be rendered: nothing in its name or its value ends them early. -/
structure Renderable (cookie : Bytes × Bytes) : Prop where
  name_ne_nil : cookie.1 ≠ []
  name_no_semicolon : 59 ∉ cookie.1
  name_no_equals : 61 ∉ cookie.1
  name_no_space : cookie.1.head? ≠ some 32
  value_no_semicolon : 59 ∉ cookie.2

instance (cookie : Bytes × Bytes) : Decidable (Renderable cookie) :=
  decidable_of_iff (cookie.1 ≠ [] ∧ 59 ∉ cookie.1 ∧ 61 ∉ cookie.1 ∧ cookie.1.head? ≠ some 32 ∧ 59 ∉ cookie.2)
    ⟨fun ⟨h₁, h₂, h₃, h₄, h₅⟩ => ⟨h₁, h₂, h₃, h₄, h₅⟩, fun ⟨h₁, h₂, h₃, h₄, h₅⟩ => ⟨h₁, h₂, h₃, h₄, h₅⟩⟩

section Cookies

variable {cookie : Bytes × Bytes} {cookies : List (Bytes × Bytes)} {space : Bytes}

theorem cookieHeader_cons_cons (sep : Bytes) (c d : Bytes × Bytes) (cs : List (Bytes × Bytes)) :
    cookieHeader sep (c :: d :: cs) = entry c ++ (sep ++ cookieHeader sep (d :: cs)) := by
  simp [cookieHeader, List.intercalate]

theorem Renderable.entry_plain (h : Renderable cookie) : ∀ c ∈ entry cookie, [59].contains c = false := by
  intro c hc
  have hne : c ≠ 59 := by
    rintro rfl
    rcases List.mem_append.mp hc with hc | hc
    · exact h.name_no_semicolon hc
    · rcases List.mem_cons.mp hc with hc | hc
      · exact absurd hc (by decide)
      · exact h.value_no_semicolon hc
  simpa using hne

/-- **The elements of a cookie header**: each cookie, with the space that separates it from the one before. -/
theorem tokens_cookieHeader (hspace : ∀ c ∈ space, [59].contains c = false) (cookie : Bytes × Bytes)
    (h : ∀ c ∈ cookie :: cookies, Renderable c) (pre : Bytes) (hpre : ∀ c ∈ pre, [59].contains c = false) :
    tokens (fun c => [59].contains c) (pre ++ cookieHeader (59 :: space) (cookie :: cookies)) =
      (pre ++ entry cookie) :: cookies.map (fun c => space ++ entry c) := by
  have hplain : ∀ c ∈ pre ++ entry cookie, [59].contains c = false := by
    intro c hc
    rcases List.mem_append.mp hc with hc | hc
    · exact hpre c hc
    · exact (h cookie List.mem_cons_self).entry_plain c hc
  have hne : pre ++ entry cookie ≠ [] := by simp [entry]
  induction cookies generalizing cookie pre with
  | nil =>
      have hone : cookieHeader (59 :: space) [cookie] = entry cookie := List.append_nil _
      rw [hone, tokens_of_plain hplain, emit_of_ne_nil hne]
      rfl
  | cons next cookies ih =>
      have hrest : ∀ c ∈ next :: cookies, Renderable c := fun c hc => h c (List.mem_cons_of_mem _ hc)
      have hplain' : ∀ c ∈ space ++ entry next, [59].contains c = false := by
        intro c hc
        rcases List.mem_append.mp hc with hc | hc
        · exact hspace c hc
        · exact (hrest next List.mem_cons_self).entry_plain c hc
      rw [cookieHeader_cons_cons, ← List.append_assoc, List.cons_append, tokens_append_delim (by rfl),
        tokens_of_plain hplain, emit_of_ne_nil hne, ih next hrest space hspace hplain' (by simp [entry])]
      rfl

/-- Reading one element. -/
theorem parseCookie_entry (h : Renderable cookie) (hspace : space = [] ∨ space = [32]) (m : StrMap) :
    parseCookie (space ++ entry cookie) m = m.insert cookie.1 cookie.2 := by
  obtain ⟨name, value⟩ := cookie
  obtain ⟨b, name', rfl⟩ := List.exists_cons_of_ne_nil h.name_ne_nil
  rcases hspace with rfl | rfl
  · have hfind := find_append_cons value h.name_no_equals
    have hb : b ≠ 32 := fun hb => h.name_no_space (congrArg some hb)
    rw [List.nil_append, parseCookie, show find 61 (entry (b :: name', value)) = _ from hfind]
    simp [hb, substr, entry]
  · have hnot : 61 ∉ 32 :: b :: name' := by
      rw [List.mem_cons, not_or]
      exact ⟨by decide, h.name_no_equals⟩
    have hfind := find_append_cons value hnot
    rw [parseCookie, show find 61 ([32] ++ entry (b :: name', value)) = _ from hfind]
    simp [substr, entry]

/-- **`parseCookies` undoes cookie rendering.** The cookies of a header are assigned in their order, so that a
    later one overrides an earlier one of the same name. -/
theorem parseCookies_cookieHeader (h : ∀ c ∈ cookies, Renderable c) {sep : Bytes}
    (hsep : sep = [59, 32] ∨ sep = [59]) :
    parseCookies (cookieHeader sep cookies) ∅ = cookies.foldl (fun m c => m.insert c.1 c.2) (∅ : StrMap) := by
  obtain ⟨space, rfl, hspace⟩ : ∃ space, sep = 59 :: space ∧ (space = [] ∨ space = [32]) := by
    rcases hsep with rfl | rfl
    · exact ⟨[32], rfl, Or.inr rfl⟩
    · exact ⟨[], rfl, Or.inl rfl⟩
  have hread : ∀ (cs : List (Bytes × Bytes)) (m : StrMap), (∀ c ∈ cs, Renderable c) →
      (cs.map (fun c => space ++ entry c)).foldl (fun m elem => if elem ≠ [] then parseCookie elem m else m) m =
        cs.foldl (fun m c => m.insert c.1 c.2) m := by
    intro cs
    induction cs with
    | nil => exact fun _ _ => rfl
    | cons c cs ih =>
        intro m hcs
        have hne : space ++ entry c ≠ [] := by simp [entry]
        rw [List.map_cons, List.foldl_cons, List.foldl_cons, if_pos hne,
          parseCookie_entry (hcs c List.mem_cons_self) hspace, ih _ fun d hd => hcs d (List.mem_cons_of_mem _ hd)]
  cases cookies with
  | nil => rfl
  | cons cookie cookies =>
      have hplain : ∀ c ∈ space, [59].contains c = false := by
        rcases hspace with rfl | rfl
        · exact List.forall_mem_nil _
        · exact fun c hc => List.mem_singleton.mp hc ▸ rfl
      have hne : entry cookie ≠ [] := by simp [entry]
      have htokens := tokens_cookieHeader hplain cookie h [] (List.forall_mem_nil _)
      rw [List.nil_append, List.nil_append] at htokens
      rw [parseCookies, splitAll_eq_tokens, htokens, List.foldl_cons, List.foldl_cons, if_pos hne,
        hread _ _ fun c hc => h c (List.mem_cons_of_mem _ hc)]
      have hfirst := parseCookie_entry (h cookie List.mem_cons_self) (Or.inl rfl) ∅
      rw [List.nil_append] at hfirst
      rw [hfirst]

/-- `a=; b=1=2 ; a=x` sets `a` twice. -/
theorem parseCookies_cookieHeader_twice :
    parseCookies (cookieHeader [59, 32] [(ascii "a", []), (ascii "b", ascii "1=2 "), (ascii "a", ascii "x")]) ∅ =
      (((∅ : StrMap).insert (ascii "a") []).insert (ascii "b") (ascii "1=2 ")).insert (ascii "a") (ascii "x") :=
  parseCookies_cookieHeader (by decide +kernel) (Or.inl rfl)

end Cookies

end Strings
end Hiaux
