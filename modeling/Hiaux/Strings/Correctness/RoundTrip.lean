import Mathlib.Algebra.GroupWithZero.Nat
import Hiaux.Lib.Percent
import Hiaux.Strings.Correctness.Queries

/-!
# `Strings.Correctness.RoundTrip` — which queries `parseGET` reads back

`parseGET` knows no escapes in names, and its separators are separators wherever they stand. Every entry that
it finds has been paid for by characters of the query that are no separators (`Scanner.Paid`), and a query
that comes back unchanged has to spend all of them on its names and values. So no separator can stand inside
one, and no value can be one that decoding changes (`parseGET_queryOf_iff`).
-/

namespace Hiaux
namespace Strings

open Lib

/-! ## What a table costs -/

/-- What an entry costs: its name, and its value with separators counting three times. -/
def entryWeight (m : StrMap) (k : Bytes) : Nat :=
  match m[k]? with
  | some v => k.length + weight isSeparator v
  | none => 0

/-- What the entries with certain names cost. -/
def tableWeight (ks : List Bytes) (m : StrMap) : Nat := (ks.map (entryWeight m)).sum

/-- What a name costs that is not in the table yet. -/
def keyDebt (m : StrMap) (k : Bytes) : Nat :=
  match m[k]? with
  | some _ => 0
  | none => k.length

theorem keyDebt_le (m : StrMap) (k : Bytes) : keyDebt m k ≤ k.length := by
  unfold keyDebt
  split
  · exact Nat.zero_le _
  · exact Nat.le_refl _

theorem tableWeight_insert_of_not_mem {ks : List Bytes} {k : Bytes} (m : StrMap) (v : Bytes) (h : k ∉ ks) :
    tableWeight ks (m.insert k v) = tableWeight ks m := by
  unfold tableWeight
  refine congrArg List.sum (List.map_congr_left fun k' hk' => ?_)
  have hne : ¬ compare k k' = .eq := fun hcmp => h (Std.LawfulEqCmp.eq_of_compare hcmp ▸ hk')
  rw [entryWeight, entryWeight, Std.ExtTreeMap.getElem?_insert, if_neg hne]

/-- An insertion costs its value, and its name if that is new. -/
theorem tableWeight_insert_le {ks : List Bytes} (hks : ks.Nodup) (m : StrMap) (k v : Bytes) :
    tableWeight ks (m.insert k v) ≤ tableWeight ks m + keyDebt m k + weight isSeparator v := by
  induction ks with
  | nil => exact Nat.zero_le _
  | cons k' ks ih =>
      obtain ⟨hnot, hks⟩ := List.nodup_cons.mp hks
      have hcons : ∀ m : StrMap, tableWeight (k' :: ks) m = entryWeight m k' + tableWeight ks m := by
        intro m
        simp [tableWeight]
      rw [hcons, hcons]
      by_cases hk : k = k'
      · subst hk
        have hself : entryWeight (m.insert k v) k = k.length + weight isSeparator v := by
          rw [entryWeight, Std.ExtTreeMap.getElem?_insert_self]
        have hold : k.length ≤ entryWeight m k + keyDebt m k := by
          unfold entryWeight keyDebt
          cases m[k]? with
          | some old => simp
          | none => simp
        rw [hself, tableWeight_insert_of_not_mem m v hnot]
        omega
      · have hother : entryWeight (m.insert k v) k' = entryWeight m k' := by
          have hne : ¬ compare k k' = .eq := fun hcmp => hk (Std.LawfulEqCmp.eq_of_compare hcmp)
          rw [entryWeight, entryWeight, Std.ExtTreeMap.getElem?_insert, if_neg hne]
        have hrest := ih hks
        omega

section Load

variable {unescape : Bytes → Bytes} {ks : List Bytes}

/-- What the scanner has spent: the entries in the table, the name of the next one if it is new, and the text
    since the last separator. -/
def Scanner.load (ks : List Bytes) (g : Scanner) : Nat :=
  tableWeight ks g.valuesGET + keyDebt g.valuesGET g.key + g.cur.length

/-- The scanner has seen a separator and has spent at most `n` characters. -/
structure Scanner.Paid (ks : List Bytes) (g : Scanner) (n : Nat) : Prop where
  started : g.state ≠ .outside
  cur : SeparatorFree g.cur
  load : g.load ks ≤ n

theorem weight_of_separatorFree {s : Bytes} (h : SeparatorFree s) : weight isSeparator s = s.length := by
  have hzero : s.countP isSeparator = 0 := by
    rw [List.countP_eq_zero]
    intro c hc
    rw [h c hc]
    exact Bool.false_ne_true
  rw [weight, hzero]
  rfl

/-- A character that is no separator is spent; a separator is not. -/
theorem Scanner.Paid.step (hunescape : ∀ s, weight isSeparator (unescape s) ≤ weight isSeparator s)
    (hks : ks.Nodup) {g : Scanner} {n : Nat} (h : g.Paid ks n) (c : UInt8) :
    (Scanner.step unescape g c).Paid ks (n + if isSeparator c then 0 else 1) := by
  obtain ⟨hstarted, hcur, hload⟩ := h
  unfold Scanner.load at hload
  have hnil : SeparatorFree [] := fun c hc => absurd hc List.not_mem_nil
  by_cases hsep : isSeparator c = true
  · rw [if_pos hsep]
    unfold Scanner.step
    split
    · refine ⟨by simp, hnil, ?_⟩
      show tableWeight ks g.valuesGET + keyDebt g.valuesGET g.key + 0 ≤ n + 0
      omega
    · split
      · refine ⟨by simp, hnil, ?_⟩
        show tableWeight ks g.valuesGET + keyDebt g.valuesGET g.cur + 0 ≤ n + 0
        have hdebt := keyDebt_le g.valuesGET g.cur
        omega
      · split
        · refine ⟨by simp, hnil, ?_⟩
          show tableWeight ks (g.valuesGET.insert g.key (unescape g.cur)) +
            keyDebt (g.valuesGET.insert g.key (unescape g.cur)) g.key + 0 ≤ n + 0
          have hdebt : keyDebt (g.valuesGET.insert g.key (unescape g.cur)) g.key = 0 := by
            rw [keyDebt, Std.ExtTreeMap.getElem?_insert_self]
          have hinsert := tableWeight_insert_le hks g.valuesGET g.key (unescape g.cur)
          have hvalue := hunescape g.cur
          rw [weight_of_separatorFree hcur] at hvalue
          omega
        · rename_i h63 h61 h38
          simp [isSeparator, h63, h61, h38] at hsep
  · have hplain : isSeparator c = false := Bool.eq_false_iff.mpr hsep
    rw [hplain, Scanner.step_plain unescape g hplain]
    refine ⟨hstarted, ?_, ?_⟩
    · intro d hd
      rcases List.mem_append.mp hd with hd | hd
      · exact hcur d hd
      · exact List.mem_singleton.mp hd ▸ hplain
    · show tableWeight ks g.valuesGET + keyDebt g.valuesGET g.key + (g.cur ++ [c]).length ≤ n + 1
      rw [List.length_append, List.length_singleton]
      omega

/-- The characters of a text that are no separators. -/
def plainCount (s : Bytes) : Nat := s.countP (fun c => !isSeparator c)

theorem Scanner.Paid.foldl (hunescape : ∀ s, weight isSeparator (unescape s) ≤ weight isSeparator s)
    (hks : ks.Nodup) (s : Bytes) {g : Scanner} {n : Nat} (h : g.Paid ks n) :
    (s.foldl (Scanner.step unescape) g).Paid ks (n + plainCount s) := by
  induction s generalizing g n with
  | nil => exact h
  | cons c s ih =>
      have hstep := ih (h.step hunescape hks c)
      have hcount : plainCount (c :: s) = plainCount s + if isSeparator c then 0 else 1 := by
        unfold plainCount
        rw [List.countP_cons]
        cases isSeparator c <;> rfl
      rw [hcount]
      rw [Nat.add_assoc, Nat.add_comm (if isSeparator c then 0 else 1)] at hstep
      exact hstep

/-- The end of a url whose last character is no separator. -/
theorem Scanner.Paid.finish (hunescape : ∀ s, weight isSeparator (unescape s) ≤ weight isSeparator s)
    (hks : ks.Nodup) {g : Scanner} {n : Nat} (h : g.Paid ks n) :
    tableWeight ks (g.finish unescape g.cur) ≤ n := by
  obtain ⟨hstarted, hcur, hload⟩ := h
  unfold Scanner.load at hload
  have hnil := hunescape []
  rw [weight_of_separatorFree (s := []) (fun c hc => absurd hc List.not_mem_nil)] at hnil
  unfold Scanner.finish
  split
  · have hinsert := tableWeight_insert_le hks g.valuesGET g.cur (unescape [])
    have hdebt := keyDebt_le g.valuesGET g.cur
    simp only [List.length_nil] at hnil
    omega
  · have hinsert := tableWeight_insert_le hks g.valuesGET g.key (unescape g.cur)
    have hvalue := hunescape g.cur
    rw [weight_of_separatorFree hcur] at hvalue
    omega
  · rename_i hstate
    exact absurd hstate hstarted

/-- The end of a url whose last character is a separator, which is then taken for a name or a value. -/
theorem Scanner.Paid.finish_separator
    (hunescape : ∀ s, weight isSeparator (unescape s) ≤ weight isSeparator s) (hks : ks.Nodup) {g : Scanner}
    {n : Nat} (h : g.Paid ks n) {c : UInt8} (hsep : isSeparator c = true) :
    tableWeight ks ((Scanner.step unescape g c).finish unescape [c]) ≤ n + if c = 61 then 3 else 1 := by
  have hstep := h.step hunescape hks c
  rw [if_pos hsep] at hstep
  obtain ⟨hstarted, -, hload⟩ := hstep
  unfold Scanner.load at hload
  have hnil := hunescape []
  rw [weight_of_separatorFree (s := []) (fun c hc => absurd hc List.not_mem_nil), List.length_nil] at hnil
  have hkey : ∀ g' : Scanner, g'.state = .key → tableWeight ks g'.valuesGET ≤ n →
      tableWeight ks (g'.finish unescape [c]) ≤ n + 1 := by
    intro g' hstate hle
    have hinsert := tableWeight_insert_le hks g'.valuesGET [c] (unescape [])
    have hdebt := keyDebt_le g'.valuesGET [c]
    rw [List.length_singleton] at hdebt
    simp only [Scanner.finish, hstate]
    omega
  by_cases h61 : c = 61
  · subst h61
    have hstate : (Scanner.step unescape g 61).state = .value := rfl
    have hinsert := tableWeight_insert_le hks (Scanner.step unescape g 61).valuesGET
      (Scanner.step unescape g 61).key (unescape [61])
    have hvalue : weight isSeparator (unescape [61]) ≤ 3 := hunescape [61]
    simp only [Scanner.finish, hstate, if_true]
    omega
  · rw [if_neg h61]
    refine hkey _ ?_ (by omega)
    unfold Scanner.step
    split
    · rfl
    · split
      · rfl
      · rename_i h63 h38
        simp [isSeparator, h63, h61, h38] at hsep

variable (unescape) in
/-- The beginning of a query is paid for. -/
theorem paid_start (ks : List Bytes) : (Scanner.step unescape (.start ∅) 63).Paid ks 0 := by
  have hzero : tableWeight ks ∅ = 0 := by
    induction ks with
    | nil => rfl
    | cons k ks ih =>
        have hk : entryWeight ∅ k = 0 := by simp [entryWeight]
        show (entryWeight ∅ k :: ks.map (entryWeight ∅)).sum = 0
        rw [List.sum_cons, hk]
        simpa [tableWeight] using ih
  refine ⟨by simp [Scanner.step], fun c hc => absurd hc List.not_mem_nil, ?_⟩
  show tableWeight ks ∅ + keyDebt ∅ [] + 0 ≤ 0
  rw [hzero]
  simp [keyDebt]

end Load

/-! ## What a query can pay for -/

/-- The separators in a name, and three times those in its value. -/
def strays (kv : Bytes × Bytes) : Nat := kv.1.countP isSeparator + 3 * kv.2.countP isSeparator

theorem strays_eq_zero_iff {kv : Bytes × Bytes} :
    strays kv = 0 ↔ SeparatorFree kv.1 ∧ SeparatorFree kv.2 := by
  have hzero : ∀ s : Bytes, s.countP isSeparator = 0 ↔ SeparatorFree s := by
    intro s
    rw [List.countP_eq_zero]
    exact forall₂_congr fun c _ => Bool.eq_false_iff.symm
  rw [← hzero, ← hzero, strays]
  omega

theorem three_le_strays {kv : Bytes × Bytes} {c : UInt8} (hc : c ∈ kv.2) (hsep : isSeparator c = true) :
    3 ≤ strays kv := by
  have hpos : 0 < kv.2.countP isSeparator := List.countP_pos_iff.mpr ⟨c, hc, hsep⟩
  unfold strays
  omega

theorem plainCount_entry (kv : Bytes × Bytes) :
    kv.1.length + weight isSeparator kv.2 = plainCount (entry kv) + strays kv := by
  have hlen : ∀ s : Bytes, s.length = s.countP isSeparator + plainCount s := by
    intro s
    rw [List.length_eq_countP_add_countP (p := isSeparator)]
    congr 1
    exact List.countP_congr (by simp)
  have hentry : plainCount (entry kv) = plainCount kv.1 + plainCount kv.2 := by
    have h61 : (!isSeparator 61) = false := rfl
    rw [plainCount, entry, List.countP_append, List.countP_cons, h61]
    rfl
  have hk := hlen kv.1
  have hv := hlen kv.2
  unfold strays weight
  omega

/-- The names and values of a query cost its plain characters, and the strays among them. -/
theorem sum_weight_eq (kvs : List (Bytes × Bytes)) :
    (kvs.map (fun kv => kv.1.length + weight isSeparator kv.2)).sum =
      plainCount (kvs.flatMap (fun q => 38 :: entry q)) + (kvs.map strays).sum := by
  induction kvs with
  | nil => rfl
  | cons kv kvs ih =>
      have hcons : plainCount ((kv :: kvs).flatMap (fun q => 38 :: entry q)) =
          plainCount (entry kv) + plainCount (kvs.flatMap (fun q => 38 :: entry q)) := by
        have h38 : (!isSeparator 38) = false := rfl
        rw [List.flatMap_cons, plainCount, List.countP_append, List.countP_cons, h38]
        rfl
      have hkv := plainCount_entry kv
      rw [List.map_cons, List.sum_cons, List.map_cons, List.sum_cons, hcons, ih]
      omega

theorem plainCount_queryOf (kv : Bytes × Bytes) (kvs : List (Bytes × Bytes)) :
    plainCount (queryOf kv kvs) = plainCount ((kv :: kvs).flatMap (fun q => 38 :: entry q)) := by
  have h63 : (!isSeparator 63) = !isSeparator 38 := rfl
  rw [queryOf, List.flatMap_cons, plainCount, plainCount, List.cons_append, List.cons_append,
    List.countP_cons, List.countP_cons, h63]

theorem strays_le_sum {kvs : List (Bytes × Bytes)} {p : Bytes × Bytes} (hp : p ∈ kvs) :
    strays p ≤ (kvs.map strays).sum := by
  induction kvs with
  | nil => exact absurd hp List.not_mem_nil
  | cons kv kvs ih =>
      rw [List.map_cons, List.sum_cons]
      rcases List.mem_cons.mp hp with rfl | hp
      · exact Nat.le_add_right _ _
      · exact Nat.le_trans (ih hp) (Nat.le_add_left _ _)

theorem strays_add_strays_le_sum {kvs : List (Bytes × Bytes)} {p q : Bytes × Bytes} (hp : p ∈ kvs)
    (hq : q ∈ kvs) (hne : p ≠ q) : strays p + strays q ≤ (kvs.map strays).sum := by
  induction kvs with
  | nil => exact absurd hp List.not_mem_nil
  | cons kv kvs ih =>
      rw [List.map_cons, List.sum_cons]
      rcases List.mem_cons.mp hp with rfl | hp'
      · have hle := strays_le_sum ((List.mem_cons.mp hq).resolve_left hne.symm)
        omega
      · rcases List.mem_cons.mp hq with rfl | hq'
        · have hle := strays_le_sum hp'
          omega
        · have hsum := ih hp' hq'
          omega

/-- A table that was assigned from a list costs what is in the list. -/
theorem tableWeight_assignAll {kvs : List (Bytes × Bytes)} (h : (kvs.map Prod.fst).Nodup) :
    tableWeight (kvs.map Prod.fst) (assignAll ∅ kvs) =
      (kvs.map (fun kv => kv.1.length + weight isSeparator kv.2)).sum := by
  unfold tableWeight
  rw [List.map_map]
  refine congrArg List.sum (List.map_congr_left fun kv hkv => ?_)
  show entryWeight (assignAll ∅ kvs) kv.1 = _
  rw [entryWeight, getElem?_assignAll_of_mem ∅ h hkv]

/-! ## Unescaping twice -/

section Unescape

variable {curlUnescape : Bytes → Bytes} (hcurl : ∀ s, curlUnescape s = percentDecode s)
include hcurl

theorem weight_unescapeTwice_le (special : UInt8 → Bool) (s : Bytes) :
    weight special (unescapeTwice curlUnescape s) ≤ weight special s := by
  have honce : ∀ s, weight special (unescapeUrl curlUnescape s) ≤ weight special s := by
    intro s
    rw [unescapeUrl, hcurl]
    exact Nat.le_trans (weight_cStr_le _ _) (weight_percentDecode_le _ _)
  exact Nat.le_trans (honce _) (honce s)

theorem unescapeUrl_eq_self_iff (s : Bytes) :
    unescapeUrl curlUnescape s = s ↔ escapeFree s = true ∧ 0 ∉ s := by
  rw [unescapeUrl, hcurl]
  constructor
  · intro h
    have hlen := congrArg List.length h
    have hle := cStr_length_le (percentDecode s)
    have hfree : escapeFree s = true := escapeFree_of_length s (by omega)
    rw [percentDecode_of_escapeFree s hfree] at h
    exact ⟨hfree, cStr_eq_self_iff.mp h⟩
  · rintro ⟨hfree, h0⟩
    rw [percentDecode_of_escapeFree s hfree, cStr_eq_self_iff.mpr h0]

/-- Unescaping twice leaves alone what unescaping once leaves alone. -/
theorem unescapeTwice_eq_self_iff (s : Bytes) :
    unescapeTwice curlUnescape s = s ↔ escapeFree s = true ∧ 0 ∉ s := by
  rw [← unescapeUrl_eq_self_iff hcurl]
  constructor
  · intro h
    have hle : ∀ s, (unescapeUrl curlUnescape s).length ≤ s.length := by
      intro s
      rw [unescapeUrl, hcurl]
      exact Nat.le_trans (cStr_length_le _) (length_percentDecode_le s)
    have hlen := congrArg List.length h
    have houter := hle (unescapeUrl curlUnescape s)
    have hsame : s.length ≤ (unescapeUrl curlUnescape s).length := by
      unfold unescapeTwice at hlen
      omega
    rw [unescapeUrl_eq_self_iff hcurl]
    have hunfold : (unescapeUrl curlUnescape s).length = (cStr (percentDecode s)).length := by
      rw [unescapeUrl, hcurl]
    have hdecode := cStr_length_le (percentDecode s)
    have hfree : escapeFree s = true := escapeFree_of_length s (by omega)
    refine ⟨hfree, ?_⟩
    rw [percentDecode_of_escapeFree s hfree] at hunfold
    refine length_cStr_eq_iff.mp ?_
    have hle' := cStr_length_le s
    omega
  · intro h
    rw [unescapeTwice, h, h]

theorem unescapeTwice_separator : unescapeTwice curlUnescape [61] = [61] :=
  (unescapeTwice_eq_self_iff hcurl [61]).mpr (by decide)

/-! ## Queries that come back -/

section RoundTrip

variable {kv : Bytes × Bytes} {kvs : List (Bytes × Bytes)}

/-- What `parseGET` makes of a query costs the plain characters of the query at most, unless the query ends
    with a separator: then it has added one, as a name or as a value. -/
theorem tableWeight_parseGET_le {ks : List Bytes} (hks : ks.Nodup) {init : Bytes} {c : UInt8}
    (hquery : queryOf kv kvs = init ++ [c]) :
    tableWeight ks (parseGET curlUnescape (queryOf kv kvs) ∅) ≤
      plainCount (queryOf kv kvs) + if isSeparator c then (if c = 61 then 3 else 1) else 0 := by
  have hunescape := weight_unescapeTwice_le hcurl isSeparator
  have hpaid : ∀ s, ((63 :: s).foldl (Scanner.step (unescapeTwice curlUnescape)) (.start ∅)).Paid ks
      (plainCount (63 :: s)) := by
    intro s
    have hfold := (paid_start (unescapeTwice curlUnescape) ks).foldl hunescape hks s
    rw [Nat.zero_add] at hfold
    exact hfold
  rw [parseGET_eq, Scanner.restOf, hquery, List.getLast?_concat]
  by_cases hsep : isSeparator c = true
  · obtain ⟨init, rfl⟩ : ∃ s, init = 63 :: s := by
      cases init with
      | nil =>
          have hlen := congrArg List.length hquery
          simp [queryOf, entry] at hlen
      | cons d init => exact ⟨init, by rw [(List.cons.inj hquery).1]⟩
    have hcount : plainCount (63 :: init ++ [c]) = plainCount (63 :: init) := by
      rw [plainCount, List.countP_append, List.countP_singleton, hsep]
      rfl
    rw [hcount, List.foldl_append, if_pos hsep]
    simp only [hsep, if_true]
    exact (hpaid init).finish_separator hunescape hks hsep
  · obtain ⟨s, hs⟩ : ∃ s, init ++ [c] = 63 :: s := ⟨_, hquery.symm⟩
    rw [if_neg hsep, hs]
    simp only [if_neg hsep]
    exact (hpaid s).finish hunescape hks

/-- A query that comes back has few separators in its names and values. -/
theorem sum_strays_le (hdistinct : ((kv :: kvs).map Prod.fst).Nodup)
    (hback : parseGET curlUnescape (queryOf kv kvs) ∅ = assignAll ∅ (kv :: kvs)) {init : Bytes} {c : UInt8}
    (hquery : queryOf kv kvs = init ++ [c]) :
    ((kv :: kvs).map strays).sum ≤ if isSeparator c then (if c = 61 then 3 else 1) else 0 := by
  have hle := tableWeight_parseGET_le hcurl hdistinct hquery
  rw [hback, tableWeight_assignAll hdistinct, sum_weight_eq, ← plainCount_queryOf] at hle
  omega

/-- A query that ends with `=`: the last name has the value `=`. -/
theorem parseGET_of_last_eq {init : Bytes} (hquery : queryOf kv kvs = init ++ [61]) :
    (parseGET curlUnescape (queryOf kv kvs) ∅)[(init.foldl (Scanner.step (unescapeTwice curlUnescape))
      (.start ∅)).cur]? = some [61] := by
  rw [parseGET_eq, Scanner.restOf, hquery, List.getLast?_concat, List.foldl_append]
  generalize init.foldl (Scanner.step (unescapeTwice curlUnescape)) (.start ∅) = g
  show (g.valuesGET.insert g.cur (unescapeTwice curlUnescape [61]))[g.cur]? = some [61]
  rw [Std.ExtTreeMap.getElem?_insert_self, unescapeTwice_separator hcurl]

omit hcurl in
/-- The text after a separator. -/
theorem cur_foldl_separator {pre s : Bytes} {sep : UInt8} (hsep : isSeparator sep = true)
    (hs : SeparatorFree s) : ((pre ++ sep :: s).foldl (Scanner.step (unescapeTwice curlUnescape))
      (.start ∅)).cur = s := by
  rw [List.foldl_append, List.foldl_cons, Scanner.foldl_plain _ hs]
  have hcur : ∀ g, (Scanner.step (unescapeTwice curlUnescape) g sep).cur = [] := by
    intro g
    unfold Scanner.step
    split
    · rfl
    · split
      · rfl
      · split
        · rfl
        · rename_i h63 h61 h38
          simp [isSeparator, h63, h61, h38] at hsep
  rw [hcur, List.nil_append]

omit hcurl in
/-- What is found in a table that was assigned from a list. -/
theorem mem_of_getElem?_assignAll {l : List (Bytes × Bytes)} (h : (l.map Prod.fst).Nodup) {k v : Bytes}
    (hk : (assignAll (∅ : StrMap) l)[k]? = some v) : (k, v) ∈ l := by
  by_cases hmem : k ∈ l.map Prod.fst
  · obtain ⟨⟨k', v'⟩, hkv, rfl⟩ := List.mem_map.mp hmem
    rw [getElem?_assignAll_of_mem ∅ h hkv] at hk
    exact Option.some.inj hk ▸ hkv
  · rw [getElem?_assignAll_of_not_mem ∅ hmem] at hk
    exact absurd hk (by simp)

/-- A query that comes back and ends with `=`: one of its names has that value. -/
theorem mem_of_last_eq (hdistinct : ((kv :: kvs).map Prod.fst).Nodup)
    (hback : parseGET curlUnescape (queryOf kv kvs) ∅ = assignAll ∅ (kv :: kvs)) {init : Bytes}
    (hquery : queryOf kv kvs = init ++ [61]) :
    ((init.foldl (Scanner.step (unescapeTwice curlUnescape)) (.start ∅)).cur, [61]) ∈ kv :: kvs := by
  have hfound := parseGET_of_last_eq hcurl hquery
  rw [hback] at hfound
  exact mem_of_getElem?_assignAll hdistinct hfound

/-- The last value of a query that comes back is not empty: the last name would have two values. -/
theorem last_value_ne_nil (hdistinct : ((kv :: kvs).map Prod.fst).Nodup)
    (hback : parseGET curlUnescape (queryOf kv kvs) ∅ = assignAll ∅ (kv :: kvs)) {pre k : Bytes} {sep : UInt8}
    (hsep : isSeparator sep = true) (hquery : queryOf kv kvs = (pre ++ sep :: k) ++ [61]) :
    (k, []) ∉ kv :: kvs := by
  intro hlast
  have hmem := mem_of_last_eq hcurl hdistinct hback hquery
  have hsum : ((kv :: kvs).map strays).sum ≤ 3 := sum_strays_le hcurl hdistinct hback hquery
  generalize hname : ((pre ++ sep :: k).foldl (Scanner.step (unescapeTwice curlUnescape))
    (.start ∅)).cur = name at hmem
  have hthree : 3 ≤ strays (name, [61]) := three_le_strays (List.mem_singleton_self 61) rfl
  have htwo := strays_add_strays_le_sum hmem hlast (by simp)
  have hk := (strays_eq_zero_iff.mp (show strays (k, []) = 0 by omega)).1
  rw [cur_foldl_separator hsep hk] at hname
  subst hname
  have htwice := (getElem?_assignAll_of_mem ∅ hdistinct hlast).symm.trans
    (getElem?_assignAll_of_mem ∅ hdistinct hmem)
  exact absurd htwice (by simp)

/-- The last value of a query that comes back does not end with `=`: it would be the `=` itself, and its name
    the empty text before it. -/
theorem last_value_no_eq (hdistinct : ((kv :: kvs).map Prod.fst).Nodup)
    (hnames : ∀ q ∈ kv :: kvs, q.1 ≠ [])
    (hback : parseGET curlUnescape (queryOf kv kvs) ∅ = assignAll ∅ (kv :: kvs)) {pre k init : Bytes}
    {sep : UInt8} (hquery : queryOf kv kvs = (pre ++ sep :: (k ++ 61 :: init)) ++ [61]) :
    (k, init ++ [61]) ∉ kv :: kvs := by
  intro hlast
  have hmem := mem_of_last_eq hcurl hdistinct hback hquery
  have hsum : ((kv :: kvs).map strays).sum ≤ 3 := sum_strays_le hcurl hdistinct hback hquery
  generalize hname : ((pre ++ sep :: (k ++ 61 :: init)).foldl
    (Scanner.step (unescapeTwice curlUnescape)) (.start ∅)).cur = name at hmem
  have hthree : 3 ≤ strays (k, init ++ [61]) := three_le_strays List.mem_concat_self rfl
  have hthree' : 3 ≤ strays (name, [61]) := three_le_strays (List.mem_singleton_self 61) rfl
  have hsame : (name, [61]) = (k, init ++ [61]) := by
    by_contra hne
    have htwo := strays_add_strays_le_sum hmem hlast hne
    omega
  obtain ⟨hk, hv⟩ := Prod.mk.inj hsame
  obtain rfl : init = [] := by simpa using hv.symm
  have hcur : ((pre ++ sep :: (k ++ [61])).foldl (Scanner.step (unescapeTwice curlUnescape))
      (.start ∅)).cur = [] := by
    have happ : pre ++ sep :: (k ++ [61]) = (pre ++ sep :: k) ++ 61 :: [] := by simp
    rw [happ]
    exact cur_foldl_separator rfl (fun c hc => absurd hc List.not_mem_nil)
  rw [hcur] at hname
  exact hnames _ hmem hname.symm

/-- **A query that comes back has no separator inside a name or a value.** -/
theorem sum_strays_eq_zero (hdistinct : ((kv :: kvs).map Prod.fst).Nodup)
    (hnames : ∀ q ∈ kv :: kvs, q.1 ≠ [])
    (hback : parseGET curlUnescape (queryOf kv kvs) ∅ = assignAll ∅ (kv :: kvs)) :
    ((kv :: kvs).map strays).sum = 0 := by
  obtain ⟨pre, sep, hsep, hquery⟩ := queryOf_eq_append kv kvs
  have hsep' : isSeparator sep = true := by rcases hsep with rfl | rfl <;> rfl
  have hlast : kvs.getLastD kv ∈ kv :: kvs := getLastD_mem kv kvs
  generalize kvs.getLastD kv = last at hquery hlast
  obtain ⟨k, v⟩ := last
  rcases List.eq_nil_or_concat v with rfl | ⟨init, c, rfl⟩
  · have hinit : queryOf kv kvs = (pre ++ sep :: k) ++ [61] := by simp [hquery, entry]
    exact absurd hlast (last_value_ne_nil hcurl hdistinct hback hsep' hinit)
  · rw [List.concat_eq_append] at hquery hlast
    have hinit : queryOf kv kvs = (pre ++ sep :: (k ++ 61 :: init)) ++ [c] := by simp [hquery, entry]
    have hle := sum_strays_le hcurl hdistinct hback hinit
    by_cases hc : isSeparator c = true
    -- a final separator is a stray of its own, which costs three
    · have hthree : 3 ≤ strays (k, init ++ [c]) := three_le_strays List.mem_concat_self hc
      have hsum := strays_le_sum hlast
      by_cases h61 : c = 61
      · subst h61
        exact absurd hlast (last_value_no_eq hcurl hdistinct hnames hback hinit)
      · rw [if_pos hc, if_neg h61] at hle
        omega
    · rw [if_neg hc] at hle
      omega

/-- **Which queries `parseGET` reads back**: those with no separator in a name or a value, no value that
    decoding changes, and a last value that is not empty. -/
theorem parseGET_queryOf_iff (hdistinct : ((kv :: kvs).map Prod.fst).Nodup)
    (hnames : ∀ q ∈ kv :: kvs, q.1 ≠ []) :
    parseGET curlUnescape (queryOf kv kvs) ∅ = assignAll ∅ (kv :: kvs) ↔
      (∀ q ∈ kv :: kvs, SeparatorFree q.1 ∧ SeparatorFree q.2 ∧ escapeFree q.2 = true ∧ 0 ∉ q.2) ∧
        (kvs.getLastD kv).2 ≠ [] := by
  have hlastmem := getLastD_mem kv kvs
  constructor
  · intro hback
    have hsum := sum_strays_eq_zero hcurl hdistinct hnames hback
    have hfree : ∀ q ∈ kv :: kvs, SeparatorFree q.1 ∧ SeparatorFree q.2 := by
      intro q hq
      have hle := strays_le_sum hq
      exact strays_eq_zero_iff.mp (by omega)
    have hlast : (kvs.getLastD kv).2 ≠ [] := by
      intro hnil
      have hfound := getElem?_assignAll_of_mem (k := (kvs.getLastD kv).1) (v := (kvs.getLastD kv).2) ∅
        hdistinct hlastmem
      rw [← hback, parseGET_queryOf kv kvs hfree, Std.ExtTreeMap.getElem?_insert_self, lastText, if_pos hnil,
        unescapeTwice_separator hcurl, hnil] at hfound
      exact absurd hfound (by simp)
    refine ⟨fun q hq => ⟨(hfree q hq).1, (hfree q hq).2, ?_⟩, hlast⟩
    rw [parseGET_queryOf_assignAll kv kvs hfree hlast] at hback
    have hdistinct' : (((kv :: kvs).map (fun q => (q.1, unescapeTwice curlUnescape q.2))).map
        Prod.fst).Nodup := by
      rw [List.map_map]
      exact hdistinct
    have hfound := getElem?_assignAll_of_mem ∅ hdistinct'
      (List.mem_map_of_mem (f := fun q => (q.1, unescapeTwice curlUnescape q.2)) hq)
    rw [hback, getElem?_assignAll_of_mem ∅ hdistinct hq] at hfound
    exact (unescapeTwice_eq_self_iff hcurl q.2).mp (Option.some.inj hfound).symm
  · rintro ⟨hclean, hlast⟩
    have hmap : (kv :: kvs).map (fun q => (q.1, unescapeTwice curlUnescape q.2)) = kv :: kvs := by
      conv_rhs => rw [← List.map_id (kv :: kvs)]
      refine List.map_congr_left fun q hq => ?_
      rw [(unescapeTwice_eq_self_iff hcurl q.2).mpr (hclean q hq).2.2]
      rfl
    rw [parseGET_queryOf_assignAll kv kvs (fun q hq => ⟨(hclean q hq).1, (hclean q hq).2.1⟩) hlast, hmap]

end RoundTrip

end Unescape

end Strings
end Hiaux
