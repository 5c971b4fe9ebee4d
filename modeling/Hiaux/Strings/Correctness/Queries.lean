import Hiaux.Strings.Correctness.ParseGET

/-!
# `Strings.Correctness.Queries` — what `parseGET` reads from a query

A query is `?name=value`, with `&` before every further parameter. Where no name and no value has a separator
in it, `parseGET` finds the parameters; but a last value that is empty is read as `=` (`parseGET_queryOf`).
-/

namespace Hiaux
namespace Strings

open Lib

/-! ## Queries -/

/-- A parameter as it stands in a query. -/
def entry (kv : Bytes × Bytes) : Bytes := kv.1 ++ 61 :: kv.2

/-- The query of a list of parameters, the first of which is `kv`. -/
def queryOf (kv : Bytes × Bytes) (kvs : List (Bytes × Bytes)) : Bytes :=
  63 :: entry kv ++ kvs.flatMap (fun q => 38 :: entry q)

/-- A text without separators. -/
def SeparatorFree (s : Bytes) : Prop := ∀ c ∈ s, isSeparator c = false

instance (s : Bytes) : Decidable (SeparatorFree s) := inferInstanceAs (Decidable (∀ c ∈ s, _))

/-- The last parameter stands behind a separator, at the end of the query. -/
theorem queryOf_eq_append (kv : Bytes × Bytes) (kvs : List (Bytes × Bytes)) :
    ∃ pre sep, (sep = 63 ∨ sep = 38) ∧ queryOf kv kvs = pre ++ sep :: entry (kvs.getLastD kv) := by
  rcases List.eq_nil_or_concat kvs with rfl | ⟨init, q, rfl⟩
  · exact ⟨[], 63, Or.inl rfl, by simp [queryOf]⟩
  · refine ⟨63 :: entry kv ++ init.flatMap (fun q => 38 :: entry q), 38, Or.inr rfl, ?_⟩
    simp [queryOf, List.concat_eq_append]

theorem getLastD_mem (kv : Bytes × Bytes) (kvs : List (Bytes × Bytes)) : kvs.getLastD kv ∈ kv :: kvs := by
  rcases List.eq_nil_or_concat kvs with rfl | ⟨init, q, rfl⟩
  · exact List.mem_cons_self
  · simp

/-! ## Reading a query without stray separators -/

section Scan

variable {unescape : Bytes → Bytes}

namespace Scanner

theorem foldl_plain {s : Bytes} (g : Scanner) (h : SeparatorFree s) :
    s.foldl (step unescape) g = { g with cur := g.cur ++ s } := by
  induction s generalizing g with
  | nil => simp
  | cons c s ih =>
      rw [List.foldl_cons, step_plain unescape g (h c List.mem_cons_self),
        ih _ (fun d hd => h d (List.mem_cons_of_mem _ hd))]
      simp

/-- After a name, the `=` and a value. -/
theorem foldl_entry {kv : Bytes × Bytes} (g : Scanner) (hk : SeparatorFree kv.1) (hv : SeparatorFree kv.2) :
    (entry kv).foldl (step unescape) g = { g with state := .value, key := g.cur ++ kv.1, cur := kv.2 } := by
  rw [entry, List.foldl_append, foldl_plain g hk, List.foldl_cons]
  exact foldl_plain _ hv

variable (unescape) in
/-- After further parameters: all but the last one are in the table. -/
theorem foldl_entries (kv : Bytes × Bytes) {kvs : List (Bytes × Bytes)} (value : Bytes) (valuesGET : StrMap)
    (h : ∀ q ∈ kvs, SeparatorFree q.1 ∧ SeparatorFree q.2) :
    ∃ value', (kvs.flatMap (fun q => 38 :: entry q)).foldl (step unescape)
        ⟨.value, kv.2, kv.1, value, valuesGET⟩ =
      ⟨.value, (kvs.getLastD kv).2, (kvs.getLastD kv).1, value',
        assignAll valuesGET ((kv :: kvs).dropLast.map (fun q => (q.1, unescape q.2)))⟩ := by
  induction kvs generalizing kv value valuesGET with
  | nil => exact ⟨value, rfl⟩
  | cons q kvs ih =>
      obtain ⟨hk, hv⟩ := h q List.mem_cons_self
      have hnext : (38 :: entry q).foldl (step unescape) ⟨.value, kv.2, kv.1, value, valuesGET⟩ =
          ⟨.value, q.2, q.1, unescape kv.2, valuesGET.insert kv.1 (unescape kv.2)⟩ := by
        rw [List.foldl_cons, foldl_entry _ hk hv]
        rfl
      obtain ⟨value', hrest⟩ := ih q (unescape kv.2) (valuesGET.insert kv.1 (unescape kv.2))
        (fun q hq => h q (List.mem_cons_of_mem _ hq))
      rw [List.flatMap_cons, List.foldl_append, hnext, List.getLastD_cons]
      exact ⟨value', hrest⟩

end Scanner

/-- The text that `parseGET` takes for the value of the last parameter: after a `=` at the very end, the `=`
    itself. -/
def lastText (v : Bytes) : Bytes := if v = [] then [61] else v

theorem restOf_entry {kv : Bytes × Bytes} (pre : Bytes) (g : Scanner) (hv : SeparatorFree kv.2)
    (hcur : g.cur = kv.2) : g.restOf (pre ++ entry kv) = lastText kv.2 := by
  rcases List.eq_nil_or_concat kv.2 with hnil | ⟨init, c, hconcat⟩
  · have hlast : (pre ++ entry kv).getLast? = some 61 := by
      rw [entry, hnil, ← List.append_assoc, List.getLast?_concat]
    rw [Scanner.restOf, hlast, lastText, hnil]
    rfl
  · rw [List.concat_eq_append] at hconcat
    have hlast : (pre ++ entry kv).getLast? = some c := by
      rw [entry, hconcat, ← List.append_assoc, ← List.cons_append, ← List.append_assoc, List.getLast?_concat]
    have hc : isSeparator c = false := hv c (by simp [hconcat])
    rw [Scanner.restOf, hlast, lastText, if_neg (by simp [hconcat])]
    simp [hc, hcur]

/-- What `parseGET` reads from a query without stray separators. -/
theorem parseGET_queryOf {curlUnescape : Bytes → Bytes} (kv : Bytes × Bytes) (kvs : List (Bytes × Bytes))
    (h : ∀ q ∈ kv :: kvs, SeparatorFree q.1 ∧ SeparatorFree q.2) (valuesGET : StrMap) :
    parseGET curlUnescape (queryOf kv kvs) valuesGET =
      (assignAll valuesGET ((kv :: kvs).dropLast.map (fun q => (q.1, unescapeTwice curlUnescape q.2)))).insert
        (kvs.getLastD kv).1 (unescapeTwice curlUnescape (lastText (kvs.getLastD kv).2)) := by
  obtain ⟨hk, hv⟩ := h kv List.mem_cons_self
  have hlast := (h _ (getLastD_mem kv kvs)).2
  have hfirst : (63 :: entry kv).foldl (Scanner.step (unescapeTwice curlUnescape)) (.start valuesGET) =
      ⟨.value, kv.2, kv.1, [], valuesGET⟩ := by
    rw [List.foldl_cons, Scanner.foldl_entry _ hk hv]
    rfl
  obtain ⟨value, hscan⟩ := Scanner.foldl_entries (unescapeTwice curlUnescape) kv [] valuesGET
    (fun q hq => h q (List.mem_cons_of_mem _ hq))
  have hall := congrArg (fun g => (kvs.flatMap (fun q => 38 :: entry q)).foldl
    (Scanner.step (unescapeTwice curlUnescape)) g) hfirst
  rw [hscan, ← List.foldl_append] at hall
  obtain ⟨pre, sep, -, hquery⟩ := queryOf_eq_append kv kvs
  have hrest := restOf_entry (pre ++ [sep]) ⟨.value, (kvs.getLastD kv).2, (kvs.getLastD kv).1, value,
    assignAll valuesGET ((kv :: kvs).dropLast.map (fun q => (q.1, unescapeTwice curlUnescape q.2)))⟩ hlast rfl
  rw [List.append_assoc, List.singleton_append, ← hquery] at hrest
  rw [parseGET_eq, show (queryOf kv kvs).foldl _ (Scanner.start valuesGET) = _ from hall, hrest]
  rfl

/-- What stands before the `?` is dropped. -/
theorem parseGET_append_queryOf {curlUnescape : Bytes → Bytes} {path : Bytes} (hpath : SeparatorFree path)
    (kv : Bytes × Bytes) (kvs : List (Bytes × Bytes)) (valuesGET : StrMap) :
    parseGET curlUnescape (path ++ queryOf kv kvs) valuesGET =
      parseGET curlUnescape (queryOf kv kvs) valuesGET := by
  have hscan : (path ++ queryOf kv kvs).foldl (Scanner.step (unescapeTwice curlUnescape))
        (.start valuesGET) =
      (queryOf kv kvs).foldl (Scanner.step (unescapeTwice curlUnescape)) (.start valuesGET) := by
    rw [List.foldl_append, Scanner.foldl_plain _ hpath]
    rfl
  have hlast : (path ++ queryOf kv kvs).getLast? = (queryOf kv kvs).getLast? := by
    have hne : queryOf kv kvs ≠ [] := List.cons_ne_nil _ _
    rw [List.getLast?_append, List.getLast?_eq_some_getLast hne]
    rfl
  rw [parseGET_eq, parseGET_eq, hscan, Scanner.restOf, Scanner.restOf, hlast]

theorem dropLast_append_getLastD (kv : Bytes × Bytes) (kvs : List (Bytes × Bytes)) :
    (kv :: kvs).dropLast ++ [kvs.getLastD kv] = kv :: kvs := by
  induction kvs generalizing kv with
  | nil => rfl
  | cons q kvs ih =>
      rw [List.dropLast_cons_cons, List.getLastD_cons, List.cons_append, ih]

/-- **Reading a query**: all its parameters, with their values unescaped, if the last value is not empty. -/
theorem parseGET_queryOf_assignAll {curlUnescape : Bytes → Bytes} (kv : Bytes × Bytes)
    (kvs : List (Bytes × Bytes)) (h : ∀ q ∈ kv :: kvs, SeparatorFree q.1 ∧ SeparatorFree q.2)
    (hlast : (kvs.getLastD kv).2 ≠ []) (valuesGET : StrMap) :
    parseGET curlUnescape (queryOf kv kvs) valuesGET =
      assignAll valuesGET ((kv :: kvs).map (fun q => (q.1, unescapeTwice curlUnescape q.2))) := by
  rw [parseGET_queryOf kv kvs h, lastText, if_neg hlast]
  conv_rhs => rw [← dropLast_append_getLastD kv kvs, List.map_append, assignAll, List.foldl_append]
  rfl

end Scan

end Strings
end Hiaux
