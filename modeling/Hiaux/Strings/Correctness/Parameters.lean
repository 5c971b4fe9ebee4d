import Hiaux.Strings.Correctness.RoundTrip

/-!
# `Strings.Correctness.Parameters` — queries with bare keys

A query may have bare keys between its `k=v`. `parseGET` takes a text before `&` for a value, whatever came
before it: a bare key that is not the last parameter is assigned, as a value, to the key of the `k=v` before
it, or to the empty key. What a query of such parameters puts into the table is `readFrom`
(`parseGET_joined`), and which queries are read as they should be is a comparison of last writes
(`readFrom_assigned_iff`).
-/

namespace Hiaux
namespace Strings

open Lib

/-! ## Parameters -/

/-- A parameter of a query: `k=v`, or a bare `k`. -/
structure Param where
  name : Bytes
  value : Option Bytes
deriving DecidableEq, Repr

/-- The unreserved characters of urls. -/
def isUnreserved (c : UInt8) : Bool :=
  (48 ≤ c && c ≤ 57) || (65 ≤ c && c ≤ 90) || (97 ≤ c && c ≤ 122) || c == 45 || c == 46 || c == 95 ||
    c == 126

namespace Param

/-- A parameter as it stands in a query. -/
def text (p : Param) : Bytes :=
  match p.value with
  | some v => entry (p.name, v)
  | none => p.name

/-- The entry a parameter stands for. -/
def assigned (p : Param) : Bytes × Bytes := (p.name, p.value.getD [])

/-- A parameter with a name, of unreserved characters. -/
def Plain (p : Param) : Prop :=
  p.name ≠ [] ∧ (∀ c ∈ p.name, isUnreserved c = true) ∧ ∀ v, p.value = some v → ∀ c ∈ v, isUnreserved c = true

end Param

/-- Parameters joined by `&`. -/
def joined (ps : List Param) : Bytes := [38].intercalate (ps.map Param.text)

theorem joined_singleton (p : Param) : joined [p] = p.text := List.append_nil _

theorem joined_cons_cons (p q : Param) (ps : List Param) :
    joined (p :: q :: ps) = p.text ++ 38 :: joined (q :: ps) := by
  simp [joined, List.intercalate]

theorem isUnreserved_plain {c : UInt8} (h : isUnreserved c = true) :
    isSeparator c = false ∧ c ≠ 37 ∧ c ≠ 0 := by
  simp only [isUnreserved, Bool.or_eq_true, Bool.and_eq_true, decide_eq_true_eq, beq_iff_eq,
    UInt8.le_iff_toNat_le, ← UInt8.toNat_inj, UInt8.reduceToNat] at h
  simp only [isSeparator, Bool.or_eq_false_iff, beq_eq_false_iff_ne, ne_eq, ← UInt8.toNat_inj,
    UInt8.reduceToNat]
  omega

theorem separatorFree_of_unreserved {s : Bytes} (h : ∀ c ∈ s, isUnreserved c = true) : SeparatorFree s :=
  fun c hc => (isUnreserved_plain (h c hc)).1

/-! ## What the scanner reads -/

/-- What is assigned when parameters are read, where `stale` is the key last seen: a bare key before another
    parameter is taken for a value of that key, and a `=` at the very end for its own value. -/
def readFrom : Bytes → List Param → List (Bytes × Bytes)
  | _, [] => []
  | _, [p] => [(p.name, (p.value.map lastText).getD [])]
  | stale, p :: q :: ps =>
      match p.value with
      | some v => (p.name, v) :: readFrom p.name (q :: ps)
      | none => (stale, p.name) :: readFrom stale (q :: ps)

section Reading

variable {curlUnescape : Bytes → Bytes} (hcurl : ∀ s, curlUnescape s = percentDecode s)
include hcurl

/-- Unescaping is the identity on unreserved characters. -/
theorem unescapeTwice_unreserved {s : Bytes} (h : ∀ c ∈ s, isUnreserved c = true) :
    unescapeTwice curlUnescape s = s := by
  refine (unescapeTwice_eq_self_iff hcurl s).mpr ⟨escapeFree_of_not_mem ?_, ?_⟩
  · exact fun hmem => (isUnreserved_plain (h _ hmem)).2.1 rfl
  · exact fun hmem => (isUnreserved_plain (h _ hmem)).2.2 rfl

theorem unescapeTwice_lastText {v : Bytes} (h : ∀ c ∈ v, isUnreserved c = true) :
    unescapeTwice curlUnescape (lastText v) = lastText v := by
  unfold lastText
  split
  · exact unescapeTwice_separator hcurl
  · exact unescapeTwice_unreserved hcurl h

omit hcurl in
/-- A last parameter without value is the text behind the last separator. -/
theorem restOf_bare {s : Bytes} (hne : s ≠ []) (hs : SeparatorFree s) (g : Scanner) (hcur : g.cur = s) :
    g.restOf s = s := by
  have hlast := List.getLast?_eq_some_getLast hne
  rw [Scanner.restOf, hlast]
  simp only [hs _ (List.getLast_mem hne), Bool.false_eq_true, if_false, hcur]

omit hcurl in
/-- What stands before other text does not change how a query ends. -/
theorem restOf_behind {s : Bytes} (hne : s ≠ []) (pre : Bytes) (c : UInt8) (g : Scanner) :
    g.restOf (pre ++ c :: s) = g.restOf s := by
  have hlast : (pre ++ c :: s).getLast? = s.getLast? := by
    obtain ⟨d, s, rfl⟩ := List.exists_cons_of_ne_nil hne
    rw [List.getLast?_append_cons, List.getLast?_cons_cons]
  rw [Scanner.restOf, Scanner.restOf, hlast]

omit hcurl in
theorem joined_ne_nil {p : Param} {ps : List Param} (h : p.Plain) : joined (p :: ps) ≠ [] := by
  have htext : p.text ≠ [] := by
    unfold Param.text
    cases p.value with
    | none => exact h.1
    | some v => simp [entry]
  cases ps with
  | nil => rwa [joined_singleton]
  | cons q ps =>
      rw [joined_cons_cons]
      simp

/-- **Reading joined parameters**, from the beginning of a parameter on. -/
theorem finish_joined (ps : List Param) (hne : ps ≠ []) (h : ∀ p ∈ ps, p.Plain) (g : Scanner)
    (hstate : g.state = .key) (hcur : g.cur = []) :
    Scanner.finish (unescapeTwice curlUnescape)
        ((joined ps).foldl (Scanner.step (unescapeTwice curlUnescape)) g)
        (((joined ps).foldl (Scanner.step (unescapeTwice curlUnescape)) g).restOf (joined ps)) =
      assignAll g.valuesGET (readFrom g.key ps) := by
  induction ps generalizing g with
  | nil => exact absurd rfl hne
  | cons p ps ih =>
      obtain ⟨hname, hplain, hvalue⟩ := h p List.mem_cons_self
      have hfree := separatorFree_of_unreserved hplain
      cases hp : p.value with
      | none =>
          have htext : p.text = p.name := by rw [Param.text, hp]
          have hread : p.name.foldl (Scanner.step (unescapeTwice curlUnescape)) g =
              { g with cur := p.name } := by
            rw [Scanner.foldl_plain g hfree, hcur, List.nil_append]
          cases ps with
          | nil =>
              -- a bare key at the end
              rw [joined_singleton, htext, hread, restOf_bare hname hfree _ rfl]
              simp only [Scanner.finish, hstate, readFrom, hp]
              rw [unescapeTwice_unreserved hcurl (s := []) (by simp)]
              rfl
          | cons q ps =>
              -- a bare key before another parameter: taken for a value
              rw [joined_cons_cons, htext, List.foldl_append, hread, List.foldl_cons,
                restOf_behind (joined_ne_nil (h q (by simp))),
                ih (by simp) (fun p hp => h p (List.mem_cons_of_mem _ hp)) _ rfl rfl]
              show assignAll (g.valuesGET.insert g.key (unescapeTwice curlUnescape p.name)) _ = _
              rw [unescapeTwice_unreserved hcurl hplain, readFrom, hp]
              rfl
      | some v =>
          have hv := hvalue v hp
          have htext : p.text = entry (p.name, v) := by rw [Param.text, hp]
          have hread : (entry (p.name, v)).foldl (Scanner.step (unescapeTwice curlUnescape)) g =
              { g with state := .value, key := p.name, cur := v } := by
            rw [Scanner.foldl_entry g hfree (separatorFree_of_unreserved hv), hcur, List.nil_append]
          cases ps with
          | nil =>
              -- `k=v` at the end
              rw [joined_singleton, htext, hread, ← List.nil_append (entry (p.name, v)),
                restOf_entry [] _ (separatorFree_of_unreserved hv) rfl]
              simp only [Scanner.finish, readFrom, hp]
              rw [unescapeTwice_lastText hcurl hv]
              rfl
          | cons q ps =>
              rw [joined_cons_cons, htext, List.foldl_append, hread, List.foldl_cons,
                restOf_behind (joined_ne_nil (h q (by simp))),
                ih (by simp) (fun p hp => h p (List.mem_cons_of_mem _ hp)) _ rfl rfl]
              show assignAll (g.valuesGET.insert p.name (unescapeTwice curlUnescape v)) _ = _
              rw [unescapeTwice_unreserved hcurl hv, readFrom, hp]
              rfl

/-- **`parseGET` on a path and parameters.** -/
theorem parseGET_joined {path : Bytes} (hpath : SeparatorFree path) {ps : List Param} (hne : ps ≠ [])
    (h : ∀ p ∈ ps, p.Plain) (valuesGET : StrMap) :
    parseGET curlUnescape (path ++ 63 :: joined ps) valuesGET = assignAll valuesGET (readFrom [] ps) := by
  obtain ⟨p, ps, rfl⟩ := List.exists_cons_of_ne_nil hne
  have hstart : (path ++ 63 :: joined (p :: ps)).foldl (Scanner.step (unescapeTwice curlUnescape))
        (.start valuesGET) =
      (joined (p :: ps)).foldl (Scanner.step (unescapeTwice curlUnescape)) ⟨.key, [], [], [], valuesGET⟩ := by
    rw [List.foldl_append, Scanner.foldl_plain _ hpath]
    rfl
  rw [parseGET_eq, hstart, restOf_behind (joined_ne_nil (h p List.mem_cons_self))]
  exact finish_joined hcurl (p :: ps) hne h _ rfl rfl

end Reading

/-! ## Last writes -/

/-- The bare parameters at the front of a list, the last of the list not counted. -/
def misread : List Param → List Bytes
  | p :: q :: ps =>
      match p.value with
      | some _ => []
      | none => p.name :: misread (q :: ps)
  | _ => []

theorem mem_misread {r : Bytes} {ps : List Param} (h : r ∈ misread ps) : ∃ p ∈ ps, p.name = r := by
  induction ps with
  | nil => exact absurd h (by simp [misread])
  | cons p ps ih =>
      cases ps with
      | nil => exact absurd h (by simp [misread])
      | cons q ps =>
          rw [misread] at h
          split at h
          · exact absurd h List.not_mem_nil
          · rcases List.mem_cons.mp h with rfl | h
            · exact ⟨p, List.mem_cons_self, rfl⟩
            · obtain ⟨p', hp', rfl⟩ := ih h
              exact ⟨p', List.mem_cons_of_mem _ hp', rfl⟩

/-- The value of the last `k=v` with a key, and the parameters behind it. -/
def lastPair (k : Bytes) : List Param → Option (Bytes × List Param)
  | [] => none
  | p :: ps => (lastPair k ps).or (if p.name = k then p.value.map (fun v => (v, ps)) else none)

/-- The value a key has after its last `k=v`, given the parameters behind. -/
def valueAfter (v : Bytes) (post : List Param) : Bytes :=
  match (misread post).getLast? with
  | some r => r
  | none => if post = [] then lastText v else v

/-- What is last assigned to a key when parameters are read. -/
theorem lastWrite_readFrom (k stale : Bytes) (ps : List Param) :
    lastWrite some k (readFrom stale ps) =
      if ps.getLast? = some ⟨k, none⟩ then some []
      else match lastPair k ps with
        | some (v, post) => some (valueAfter v post)
        | none => if stale = k then (misread ps).getLast? else none := by
  induction ps generalizing stale with
  | nil => simp [readFrom, lastWrite, lastPair, misread]
  | cons p ps ih =>
      obtain ⟨name, value⟩ := p
      cases ps with
      | nil =>
          by_cases hk : name = k
          · cases value <;> simp [readFrom, lastWrite, written, lastPair, misread, valueAfter, hk]
          · cases value <;> simp [readFrom, lastWrite, written, lastPair, misread, hk]
      | cons q ps =>
          rw [List.getLast?_cons_cons]
          cases value with
          | none =>
              have hread : lastWrite some k (readFrom stale (⟨name, none⟩ :: q :: ps)) =
                  (lastWrite some k (readFrom stale (q :: ps))).or (if stale = k then some name else none) :=
                rfl
              have hpair : lastPair k (⟨name, none⟩ :: q :: ps) = lastPair k (q :: ps) := by
                rw [lastPair, Option.map_none, ite_self, Option.or_none]
              rw [hread, ih, hpair]
              by_cases hlast : (q :: ps).getLast? = some ⟨k, none⟩
              · rw [if_pos hlast, if_pos hlast]
                rfl
              · rw [if_neg hlast, if_neg hlast]
                cases lastPair k (q :: ps) with
                | some x => rfl
                | none =>
                    by_cases hstale : stale = k
                    · simp only [if_pos hstale, misread, List.getLast?_cons]
                      cases (misread (q :: ps)).getLast? <;> rfl
                    · simp only [if_neg hstale]
                      rfl
          | some v =>
              have hread : lastWrite some k (readFrom stale (⟨name, some v⟩ :: q :: ps)) =
                  (lastWrite some k (readFrom name (q :: ps))).or (if name = k then some v else none) := rfl
              have hpair : lastPair k (⟨name, some v⟩ :: q :: ps) =
                  (lastPair k (q :: ps)).or (if name = k then some (v, q :: ps) else none) := rfl
              have hmisread : misread (⟨name, some v⟩ :: q :: ps) = [] := rfl
              rw [hread, ih, hpair, hmisread]
              by_cases hlast : (q :: ps).getLast? = some ⟨k, none⟩
              · rw [if_pos hlast, if_pos hlast]
                rfl
              · rw [if_neg hlast, if_neg hlast]
                cases lastPair k (q :: ps) with
                | some x => rfl
                | none =>
                    by_cases hname : name = k
                    · simp only [if_pos hname, valueAfter, Option.none_or]
                      cases (misread (q :: ps)).getLast? <;> simp
                    · simp [if_neg hname]

/-- What is last assigned to a key by the entries the parameters stand for. -/
theorem lastWrite_assigned (k : Bytes) (ps : List Param) :
    lastWrite some k (ps.map Param.assigned) =
      match lastPair k ps with
      | some (v, post) => some (if k ∈ post.map Param.name then [] else v)
      | none => if k ∈ ps.map Param.name then some [] else none := by
  induction ps with
  | nil => rfl
  | cons p ps ih =>
      obtain ⟨name, value⟩ := p
      have hread : lastWrite some k ((⟨name, value⟩ :: ps).map Param.assigned) =
          (lastWrite some k (ps.map Param.assigned)).or (if name = k then some (value.getD []) else none) :=
        rfl
      rw [hread, ih, lastPair]
      cases lastPair k ps with
      | some x => rfl
      | none =>
          by_cases hname : name = k
          · subst hname
            by_cases hmem : name ∈ ps.map Param.name
            · cases value <;> simp [hmem]
            · cases value <;> simp [hmem]
          · have hne : ¬ k = name := fun h => hname h.symm
            simp [hname, hne]

theorem lastPair_eq_some {k v : Bytes} {ps post : List Param} (h : lastPair k ps = some (v, post)) :
    ∃ pre, ps = pre ++ ⟨k, some v⟩ :: post := by
  induction ps with
  | nil => exact absurd h (by simp [lastPair])
  | cons p ps ih =>
      rcases Option.or_eq_some_iff.mp h with h | ⟨-, h⟩
      · obtain ⟨pre, rfl⟩ := ih h
        exact ⟨p :: pre, rfl⟩
      · obtain ⟨name, value⟩ := p
        split at h
        · rename_i hname
          obtain ⟨v', rfl, heq⟩ := Option.map_eq_some_iff.mp h
          obtain ⟨rfl, rfl⟩ := Prod.mk.inj heq
          exact ⟨[], by rw [← hname]; rfl⟩
        · exact absurd h (by simp)

/-! ## Which queries are read as they should be -/

/-- The value of a key survives the reading. Either the key is the last parameter, bare; or it has a last
    `k=v`, and if bare keys stand right behind that (the last parameter not counted), the last of them is `v`
    and `k` does not occur again; if none do, then `v` is empty where `k` occurs again, and is not empty where
    the query ends. -/
def Survives (ps : List Param) (k : Bytes) : Prop :=
  ps.getLast? = some ⟨k, none⟩ ∨
    match lastPair k ps with
    | none => False
    | some (v, post) =>
        match (misread post).getLast? with
        | some r => r = v ∧ k ∉ post.map Param.name
        | none => (k ∈ post.map Param.name → v = []) ∧ (post = [] → v ≠ [])

/-- **Last writes agree for a key** exactly if its value survives. -/
theorem lastWrite_eq_iff {ps : List Param} (h : ∀ p ∈ ps, p.name ≠ []) {k : Bytes}
    (hk : k ∈ ps.map Param.name) :
    lastWrite some k (readFrom [] ps) = lastWrite some k (ps.map Param.assigned) ↔ Survives ps k := by
  have hkne : ([] : Bytes) ≠ k := by
    rintro rfl
    obtain ⟨p, hp, hname⟩ := List.mem_map.mp hk
    exact h p hp hname
  rw [lastWrite_readFrom, lastWrite_assigned, Survives]
  by_cases hlast : ps.getLast? = some ⟨k, none⟩
  · rw [if_pos hlast]
    refine iff_of_true ?_ (Or.inl hlast)
    cases hpair : lastPair k ps with
    | none => exact (if_pos hk).symm
    | some x =>
        obtain ⟨v, post⟩ := x
        obtain ⟨pre, rfl⟩ := lastPair_eq_some hpair
        rw [List.getLast?_append_cons] at hlast
        -- the last parameter is bare, so it is one of those behind the pair
        have hmem : k ∈ post.map Param.name := by
          cases post with
          | nil => exact absurd (congrArg Param.value (Option.some.inj hlast)) (by simp)
          | cons q post =>
              rw [List.getLast?_cons_cons] at hlast
              exact List.mem_map.mpr ⟨_, List.mem_of_getLast? hlast, rfl⟩
        exact congrArg some (if_pos hmem).symm
  · rw [if_neg hlast, or_iff_right hlast]
    cases hpair : lastPair k ps with
    | none =>
        simp only [if_neg hkne, if_pos hk]
        exact iff_of_false (by simp) id
    | some x =>
        obtain ⟨v, post⟩ := x
        obtain ⟨pre, rfl⟩ := lastPair_eq_some hpair
        simp only [valueAfter, Option.some.injEq]
        cases hmis : (misread post).getLast? with
        | some r =>
            have hr : r ≠ [] := by
              obtain ⟨q, hq, rfl⟩ := mem_misread (List.mem_of_getLast? hmis)
              exact h q (List.mem_append_right _ (List.mem_cons_of_mem _ hq))
            by_cases hmem : k ∈ post.map Param.name
            · simp [hmem, hr]
            · simp [hmem]
        | none =>
            cases post with
            | nil =>
                have hlt : lastText v = v ↔ v ≠ [] := by
                  unfold lastText
                  by_cases hv : v = []
                  · simp [hv]
                  · simp [hv]
                simpa using hlt
            | cons q post => simp

/-- A lookup in a table assigned from a list finds the last write. -/
theorem getElem?_assignAll (l : List (Bytes × Bytes)) (k : Bytes) :
    (assignAll (∅ : StrMap) l)[k]? = lastWrite some k l := by
  have hwrites : (assignAll (∅ : StrMap) l)[k]? = (lastWrite some k l).or (∅ : StrMap)[k]? :=
    getElem?_writes some k (fun (m : StrMap) kv => m.insert kv.1 kv.2) id (fun _ _ => rfl) ∅ l
  rw [Std.ExtTreeMap.getElem?_empty, Option.or_none] at hwrites
  exact hwrites

/-- **What is read is what the parameters stand for** exactly if the first of several parameters is not a
    bare key and every value survives. -/
theorem readFrom_assigned_iff {ps : List Param} (h : ∀ p ∈ ps, p.name ≠ []) :
    assignAll (∅ : StrMap) (readFrom [] ps) = assignAll ∅ (ps.map Param.assigned) ↔
      misread ps = [] ∧ ∀ p ∈ ps, Survives ps p.name := by
  have hnil : [] ∉ ps.map Param.name := by
    intro hmem
    obtain ⟨p, hp, hname⟩ := List.mem_map.mp hmem
    exact h p hp hname
  have hpair : ∀ k, k ∉ ps.map Param.name → lastPair k ps = none := by
    intro k hk
    cases hpair : lastPair k ps with
    | none => rfl
    | some x =>
        obtain ⟨pre, hsplit⟩ := lastPair_eq_some hpair
        have hmem : ⟨k, some x.1⟩ ∈ ps := hsplit ▸ List.mem_append_right _ List.mem_cons_self
        exact absurd (List.mem_map_of_mem hmem) hk
  have hother : ∀ k, k ∉ ps.map Param.name → ps.getLast? ≠ some ⟨k, none⟩ := fun k hk hlast =>
    hk (List.mem_map.mpr ⟨_, List.mem_of_getLast? hlast, rfl⟩)
  have hexpected : ∀ k, k ∉ ps.map Param.name → lastWrite some k (ps.map Param.assigned) = none := by
    intro k hk
    rw [lastWrite_assigned, hpair k hk]
    exact if_neg hk
  constructor
  · intro heq
    have hlookup : ∀ k, lastWrite some k (readFrom [] ps) = lastWrite some k (ps.map Param.assigned) := by
      intro k
      rw [← getElem?_assignAll, ← getElem?_assignAll, heq]
    refine ⟨?_, fun p hp => (lastWrite_eq_iff h (List.mem_map_of_mem hp)).mp (hlookup _)⟩
    -- the empty key is written by the bare keys in front, and stands for nothing
    have hempty := hlookup []
    rw [hexpected [] hnil, lastWrite_readFrom, if_neg (hother [] hnil), hpair [] hnil] at hempty
    exact List.getLast?_eq_none_iff.mp hempty
  · rintro ⟨hfront, hall⟩
    apply Std.ExtTreeMap.ext_getElem?
    intro k
    rw [getElem?_assignAll, getElem?_assignAll]
    by_cases hk : k ∈ ps.map Param.name
    · obtain ⟨p, hp, rfl⟩ := List.mem_map.mp hk
      exact (lastWrite_eq_iff h hk).mpr (hall p hp)
    · rw [hexpected k hk, lastWrite_readFrom, if_neg (hother k hk), hpair k hk, hfront]
      exact ite_self _

/-- **Whatever it is given, `parseGET` adds an entry.** -/
theorem parseGET_ne_empty (curlUnescape : Bytes → Bytes) (url : Bytes) : parseGET curlUnescape url ∅ ≠ ∅ :=
  Std.ExtTreeMap.insert_ne_empty

/-- **Which queries `parseGET` reads as they should be**: those in which no bare key stands in front of other
    parameters and every value survives; and of the urls without a query, none. -/
theorem parseGET_params_iff {curlUnescape : Bytes → Bytes} (hcurl : ∀ s, curlUnescape s = percentDecode s) :
    (∀ path ps, SeparatorFree path → ps ≠ [] → (∀ p ∈ ps, p.Plain) →
      (parseGET curlUnescape (path ++ 63 :: joined ps) ∅ = assignAll ∅ (ps.map Param.assigned) ↔
        misread ps = [] ∧ ∀ p ∈ ps, Survives ps p.name)) ∧
      ∀ url, 63 ∉ url → parseGET curlUnescape url ∅ ≠ ∅ := by
  refine ⟨?_, fun url _ => parseGET_ne_empty curlUnescape url⟩
  intro path ps hpath hne hplain
  rw [parseGET_joined hcurl hpath hne hplain]
  exact readFrom_assigned_iff fun p hp => (hplain p hp).1

/-- The parameters `a=1&b`. -/
def aOneB : List Param := [⟨ascii "a", some (ascii "1")⟩, ⟨ascii "b", none⟩]

theorem aOne_plain : (Param.mk (ascii "a") (some (ascii "1"))).Plain := by
  refine ⟨by decide +kernel, by decide +kernel, fun v hv => ?_⟩
  obtain rfl := Option.some.inj hv
  decide +kernel

theorem bareB_plain : (Param.mk (ascii "b") none).Plain :=
  ⟨by decide +kernel, by decide +kernel, fun v hv => absurd hv (by simp)⟩

theorem aOneB_plain : ∀ p ∈ aOneB, p.Plain := by
  intro p hp
  rcases List.mem_pair.mp hp with rfl | rfl
  · exact aOne_plain
  · exact bareB_plain

/-- The theorem at `/p?a=1&b`. -/
theorem parseGET_params_bareLast :
    parseGET percentDecode (ascii "/p" ++ 63 :: joined aOneB) ∅ = assignAll ∅ (aOneB.map Param.assigned) := by
  refine ((parseGET_params_iff (fun _ => rfl)).1 (ascii "/p") aOneB (by decide +kernel) (by decide +kernel)
    aOneB_plain).mpr ⟨rfl, ?_⟩
  intro p hp
  rcases List.mem_pair.mp hp with rfl | rfl
  · exact Or.inr ⟨by decide +kernel, by decide +kernel⟩
  · exact Or.inl rfl

/-- **An empty value at the end**, a bare key in front, and no query at all: `/p?a=` gives `a` the value `=`,
    `/p?b&a=1` has no key `b`, and `/p` still adds an entry. -/
theorem parseGET_params_misread :
    parseGET percentDecode (ascii "/p" ++ 63 :: joined [⟨ascii "a", some []⟩]) ∅ ≠
        assignAll ∅ ([⟨ascii "a", some []⟩].map Param.assigned) ∧
      parseGET percentDecode (ascii "/p" ++ 63 :: joined [⟨ascii "b", none⟩, ⟨ascii "a", some (ascii "1")⟩]) ∅ ≠
        assignAll ∅ ([⟨ascii "b", none⟩, ⟨ascii "a", some (ascii "1")⟩].map Param.assigned) ∧
      parseGET percentDecode (ascii "/p") ∅ ≠ ∅ := by
  have hpath : SeparatorFree (ascii "/p") := by decide +kernel
  refine ⟨?_, ?_, parseGET_ne_empty _ _⟩
  · have hplain : ∀ p ∈ [Param.mk (ascii "a") (some [])], p.Plain := by
      rintro p hp
      obtain rfl := List.mem_singleton.mp hp
      refine ⟨by decide +kernel, by decide +kernel, fun v hv => ?_⟩
      obtain rfl := Option.some.inj hv
      decide +kernel
    rw [parseGET_joined (fun _ => rfl) hpath (by simp) hplain, Ne,
      readFrom_assigned_iff fun p hp => (hplain p hp).1]
    rintro ⟨-, hall⟩
    rcases hall _ List.mem_cons_self with h | ⟨-, h⟩
    · exact absurd h (by decide +kernel)
    · exact h rfl rfl
  · have hplain : ∀ p ∈ [⟨ascii "b", none⟩, Param.mk (ascii "a") (some (ascii "1"))], p.Plain := by
      rintro p hp
      rcases List.mem_pair.mp hp with rfl | rfl
      · exact bareB_plain
      · exact aOne_plain
    rw [parseGET_joined (fun _ => rfl) hpath (by simp) hplain, Ne,
      readFrom_assigned_iff fun p hp => (hplain p hp).1]
    rintro ⟨hfront, -⟩
    exact absurd hfront (by decide +kernel)

end Strings
end Hiaux
