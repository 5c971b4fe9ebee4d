import Hiaux.Lib.Percent
import Hiaux.Strings.Edits
import Mathlib.Data.List.DropRight

/-!
# `Strings.Correctness.Trimming` — the outer spaces

`removeLeadingSpaces` takes the spaces off (`removeLeadingSpaces_padded`). `removeEndingSpaces` stops at the last
character that is no space and cuts there: if there are spaces behind it, the character goes too, and a string
of which nothing is left is read outside (`removeLeadingAndEndingSpaces_padded`).
-/

namespace Hiaux
namespace Strings

open Lib

/-- A run of spaces. -/
def spaces (n : Nat) : Bytes := List.replicate n 32

/-- A text that does not begin or end with a space. -/
structure NoOuterSpaces (t : Bytes) : Prop where
  first : t.head? ≠ some 32
  last : t.getLast? ≠ some 32

/-- `t` is `s` without its outer spaces. -/
structure IsTrimmed (s t : Bytes) : Prop extends NoOuterSpaces t where
  padded : ∃ m n, s = spaces m ++ (t ++ spaces n)

variable {s t u : Bytes} {m n : Nat}

/-! ## Trimmed texts -/

theorem spaces_succ (n : Nat) : spaces (n + 1) = 32 :: spaces n := rfl

theorem length_spaces (n : Nat) : (spaces n).length = n := List.length_replicate

def isBlank (c : UInt8) : Bool := c == 32

/-- The text without its outer spaces. -/
def trim (s : Bytes) : Bytes := (s.dropWhile isBlank).rdropWhile isBlank

theorem eq_spaces (h : ∀ c ∈ s, isBlank c = true) : s = spaces s.length :=
  List.eq_replicate_iff.mpr ⟨rfl, fun c hc => beq_iff_eq.mp (h c hc)⟩

theorem isTrimmed_trim (s : Bytes) : IsTrimmed s (trim s) := by
  have hlead := eq_spaces (s := s.takeWhile isBlank) fun c hc => List.mem_takeWhile_imp hc
  have hend := eq_spaces (s := (s.dropWhile isBlank).rtakeWhile isBlank) fun c hc =>
    List.mem_rtakeWhile_imp hc
  refine ⟨⟨fun hfirst => ?_, fun hlast => ?_⟩, (s.takeWhile isBlank).length,
    ((s.dropWhile isBlank).rtakeWhile isBlank).length, ?_⟩
  · obtain ⟨r, hr⟩ : ∃ r, trim s = 32 :: r := List.head?_eq_some_iff.mp hfirst
    obtain ⟨z, hz⟩ : trim s <+: s.dropWhile isBlank := List.rdropWhile_prefix _ _
    rw [hr, List.cons_append] at hz
    have hhead := List.head?_dropWhile_not (isBlank) s
    rw [← hz] at hhead
    exact Bool.noConfusion (hhead : true = false)
  · have hne : trim s ≠ [] := by
      intro hnil
      rw [hnil] at hlast
      cases hlast
    have hnot := List.rdropWhile_last_not _ (s.dropWhile isBlank) hne
    rw [List.getLast?_eq_some_getLast hne, Option.some.injEq] at hlast
    exact hnot (beq_iff_eq.mpr hlast)
  · rw [← hlead, ← hend, trim, List.rdropWhile_append_rtakeWhile, List.takeWhile_append_dropWhile]

theorem dropWhile_spaces (m : Nat) (u : Bytes) :
    (spaces m ++ u).dropWhile isBlank = u.dropWhile isBlank := by
  induction m with
  | zero => rfl
  | succ m ih => rw [spaces_succ, List.cons_append, List.dropWhile_cons_of_pos (by rfl), ih]

theorem rdropWhile_spaces (u : Bytes) (n : Nat) :
    (u ++ spaces n).rdropWhile isBlank = u.rdropWhile isBlank := by
  induction n with
  | zero => rw [spaces, List.replicate_zero, List.append_nil]
  | succ n ih =>
      rw [spaces, List.replicate_succ', ← List.append_assoc, List.rdropWhile_concat_pos _ _ _ (by rfl)]
      exact ih

/-- There is one such text. -/
theorem IsTrimmed.eq_trim (h : IsTrimmed s t) : t = trim s := by
  obtain ⟨⟨hfirst, hlast⟩, m, n, rfl⟩ := h
  rw [trim, dropWhile_spaces]
  cases t with
  | nil =>
      have hnil := dropWhile_spaces n []
      rw [List.append_nil] at hnil
      rw [List.nil_append, hnil]
      rfl
  | cons c t =>
      have hc : ¬ isBlank c = true := fun h32 => hfirst (by rw [beq_iff_eq.mp h32]; rfl)
      rw [List.cons_append, List.dropWhile_cons_of_neg hc, ← List.cons_append, rdropWhile_spaces, eq_comm,
        List.rdropWhile_eq_self_iff]
      intro hne h32
      exact hlast (by rw [List.getLast?_eq_some_getLast hne, beq_iff_eq.mp h32])

/-! ## Leading spaces -/

theorem charAt_append (p r : Bytes) : charAt (p ++ r) p.length = some (r.head?.getD 0) := by
  unfold charAt
  rw [List.append_assoc, List.getElem?_append_right (Nat.le_refl _), Nat.sub_self]
  cases r <;> rfl

theorem charAt_of_lt (h : m < s.length) (r : Bytes) : charAt (s ++ r) m = s[m]? := by
  unfold charAt
  rw [List.append_assoc, List.getElem?_append_left h]

/-- The terminating NUL is no space. -/
theorem getD_head?_ne (hu : u.head? ≠ some 32) : u.head?.getD 0 ≠ 32 := by
  cases u with
  | nil => decide
  | cons c u => exact fun hc => hu (congrArg some hc)

/-- The loop stops behind the spaces. -/
theorem skipLeadingSpaces_padded (hu : u.head? ≠ some 32) (k : Nat) {i : Nat} (hi : i + k = m) :
    skipLeadingSpaces (spaces m ++ u) i = some m := by
  induction k generalizing i with
  | zero =>
      obtain rfl : i = m := hi
      have hat := charAt_append (spaces i) u
      rw [length_spaces] at hat
      rw [skipLeadingSpaces, hat]
      exact if_neg fun h => getD_head?_ne hu h.1
  | succ k ih =>
      have hlt : i < m := by omega
      have hat : charAt (spaces m ++ u) i = some 32 := by
        rw [charAt_of_lt (by rwa [length_spaces])]
        simp [spaces, hlt]
      have hin : i < (spaces m ++ u).length := by
        rw [List.length_append, length_spaces]
        omega
      rw [skipLeadingSpaces, hat]
      simp only [hin, and_self, dif_pos]
      exact ih (by omega)

/-- **The leading spaces are taken off.** -/
theorem removeLeadingSpaces_padded (hu : u.head? ≠ some 32) (m : Nat) :
    removeLeadingSpaces (spaces m ++ u) = some u := by
  unfold removeLeadingSpaces
  cases m with
  | zero =>
      have hat := charAt_append [] u
      rw [List.nil_append, List.length_nil] at hat
      rw [spaces, List.replicate_zero, List.nil_append, hat]
      exact if_pos (getD_head?_ne hu)
  | succ m =>
      have hat : charAt (spaces (m + 1) ++ u) 0 = some 32 := rfl
      rw [hat, skipLeadingSpaces_padded hu (m + 1) (Nat.zero_add _)]
      simp [substr, length_spaces]

/-! ## Ending spaces -/

/-- The loop stops at the last character that is no space. -/
theorem skipEndingSpaces_padded {c : UInt8} (hc : c ≠ 32) (u r : Bytes) (k : Nat) (hk : k ≤ n) :
    skipEndingSpaces (u ++ c :: spaces n ++ r) (u.length + k) = some u.length := by
  induction k with
  | zero =>
      have hat : charAt (u ++ c :: spaces n ++ r) u.length = some c := by
        rw [List.append_assoc, charAt_append]
        rfl
      cases hlen : u.length with
      | zero =>
          rw [hlen] at hat
          rw [skipEndingSpaces, hat]
          rfl
      | succ last =>
          rw [hlen] at hat
          rw [Nat.add_zero, skipEndingSpaces, hat]
          exact if_neg hc
  | succ k ih =>
      have hat : charAt (u ++ c :: spaces n ++ r) (u.length + k + 1) = some 32 := by
        rw [charAt_of_lt (by simp [length_spaces]; omega), Nat.add_assoc,
          List.getElem?_append_right (Nat.le_add_right _ _), Nat.add_sub_cancel_left]
        simp [spaces, Nat.lt_of_succ_le hk]
      rw [← Nat.add_assoc, skipEndingSpaces, hat]
      exact ih (by omega)

/-- **`removeEndingSpaces` cuts at the last character that is no space**: with spaces behind it, the character
    goes too. -/
theorem removeEndingSpaces_padded {c : UInt8} (hc : c ≠ 32) (u : Bytes) (n : Nat) :
    removeEndingSpaces (u ++ c :: spaces n) = some (if n = 0 then u ++ [c] else u) := by
  have hlen : (u ++ c :: spaces n).length = u.length + n + 1 := by
    rw [List.length_append, List.length_cons, length_spaces, Nat.add_assoc]
  unfold removeEndingSpaces
  rw [hlen]
  cases n with
  | zero =>
      have hat := charAt_append u [c]
      dsimp only [spaces, List.replicate_zero, Nat.add_zero]
      rw [hat]
      exact if_pos hc
  | succ n =>
      have hat : charAt (u ++ c :: spaces (n + 1)) (u.length + (n + 1)) = some 32 := by
        have hlast := charAt_of_lt (s := u ++ c :: spaces (n + 1)) (m := u.length + (n + 1)) (by omega) []
        rw [List.append_nil] at hlast
        rw [hlast, List.getElem?_append_right (Nat.le_add_right _ _), Nat.add_sub_cancel_left]
        simp [spaces]
      have hskip := skipEndingSpaces_padded hc u [] (n + 1) (Nat.le_refl _)
      rw [List.append_nil] at hskip
      dsimp only
      rw [hat, hskip]
      simp [substr]

/-! ## Both -/

/-- **What `removeLeadingAndEndingSpaces` does to a padded text.** -/
theorem removeLeadingAndEndingSpaces_padded (ht : NoOuterSpaces t) (m n : Nat) :
    removeLeadingAndEndingSpaces (spaces m ++ (t ++ spaces n)) =
      if t = [] then none else some (if n = 0 then t else t.dropLast) := by
  unfold removeLeadingAndEndingSpaces
  obtain rfl | ⟨u, c, rfl⟩ := List.eq_nil_or_concat' t
  · have hspaces : spaces m ++ ([] ++ spaces n) = spaces (m + n) ++ [] := by
      simp [spaces, List.replicate_append_replicate]
    rw [hspaces, removeLeadingSpaces_padded (by simp)]
    rfl
  · have hne : u ++ [c] ≠ [] := List.append_ne_nil_of_right_ne_nil u (List.cons_ne_nil c [])
    have hc : c ≠ 32 := by
      rintro rfl
      exact ht.last List.getLast?_concat
    have hhead : ((u ++ [c]) ++ spaces n).head? ≠ some 32 := by
      rw [List.head?_append_of_ne_nil _ hne]
      exact ht.first
    rw [removeLeadingSpaces_padded hhead, Option.bind_some, List.append_assoc, List.singleton_append,
      removeEndingSpaces_padded hc, if_neg hne, List.dropLast_concat]

/-- How a padded text ends. -/
theorem getLast?_padded (ht : NoOuterSpaces t) (m n : Nat) :
    (∃ c, (spaces m ++ (t ++ spaces n)).getLast? = some c ∧ c ≠ 32) ↔ t ≠ [] ∧ n = 0 := by
  have hspaces : ∀ k c, (spaces k).getLast? = some c → c = 32 := fun k c hc =>
    List.eq_of_mem_replicate (List.mem_of_getLast? hc)
  rw [List.getLast?_append, List.getLast?_append]
  cases n with
  | zero =>
      have hnil : (spaces 0).getLast? = none := rfl
      rw [hnil, Option.none_or]
      cases hlast : t.getLast? with
      | none =>
          rw [List.getLast?_eq_none_iff.mp hlast, Option.none_or]
          exact ⟨fun ⟨c, hc, h32⟩ => absurd (hspaces m c hc) h32, fun h => absurd rfl h.1⟩
      | some c =>
          have hne : t ≠ [] := List.getLast?_isSome.mp (Option.isSome_of_eq_some hlast)
          exact ⟨fun _ => ⟨hne, rfl⟩, fun _ => ⟨c, rfl, fun h32 => ht.last (h32 ▸ hlast)⟩⟩
  | succ n =>
      have hsome : (spaces (n + 1)).getLast? = some 32 := by simp [spaces, List.getLast?_replicate]
      rw [hsome]
      exact ⟨fun ⟨c, hc, h32⟩ => absurd (Option.some.inj hc).symm h32, fun h => by omega⟩

/-- For `s`, the outer spaces are removed and nothing else: nothing outside is read, the text that stays is the
    one without them, and doing it again changes nothing. -/
def TrimsExactly (s : Bytes) : Prop :=
  ∃ t, removeLeadingAndEndingSpaces s = some t ∧ IsTrimmed s t ∧ (∀ t', IsTrimmed s t' → t' = t) ∧
    removeLeadingAndEndingSpaces t = some t

/-- **Which strings are trimmed exactly**: those that end with a character that is no space. -/
theorem trimsExactly_iff (s : Bytes) : TrimsExactly s ↔ ∃ c, s.getLast? = some c ∧ c ≠ 32 := by
  have htrim := isTrimmed_trim s
  obtain ⟨m, n, hs⟩ := htrim.padded
  generalize trim s = t at htrim hs
  have hresult := removeLeadingAndEndingSpaces_padded htrim.toNoOuterSpaces m n
  rw [← hs] at hresult
  rw [hs, getLast?_padded htrim.toNoOuterSpaces, ← hs]
  constructor
  · rintro ⟨t', ht', -, hunique, -⟩
    rw [hresult, ← hunique t htrim] at ht'
    split at ht'
    · cases ht'
    · rename_i hne
      refine ⟨hne, ?_⟩
      by_contra hn
      rw [if_neg hn, Option.some.injEq] at ht'
      have hlen := congrArg List.length ht'
      have hpos := List.length_pos_iff.mpr hne
      rw [List.length_dropLast] at hlen
      omega
  · rintro ⟨hne, hn⟩
    rw [if_neg hne, if_pos hn] at hresult
    have hagain := removeLeadingAndEndingSpaces_padded htrim.toNoOuterSpaces 0 0
    rw [if_neg hne, if_pos rfl] at hagain
    refine ⟨t, hresult, htrim, fun t' ht' => ht'.eq_trim.trans htrim.eq_trim.symm, ?_⟩
    simpa [spaces] using hagain

/-! ## Pairs -/

variable {curlUnescape : Bytes → Bytes} {k v : Bytes}

/-- `getPairGET` splits at the first `=`. -/
theorem getPairGET_pair {p : Bytes} (hp : 61 ∉ p) (r : Bytes) (kv : Bytes × Bytes) :
    getPairGET curlUnescape (p ++ 61 :: r) kv = (removeLeadingAndEndingSpaces p).bind fun key =>
      (removeLeadingAndEndingSpaces r).map fun value =>
        (true, unescapeUrl curlUnescape key, unescapeUrl curlUnescape value) := by
  have hkey : substr (p ++ 61 :: r) 0 p.length = p := List.take_left
  have hvalue : substr (p ++ 61 :: r) (p.length + 1) ((p ++ 61 :: r).length - p.length) = r := by
    apply substr_behind
    rw [List.length_append, List.length_cons]
    omega
  unfold getPairGET
  rw [find_append_cons r hp]
  dsimp only
  rw [hkey, hvalue]

/-- A text with `n` spaces behind it comes through unescaped: it is not empty, and if there are spaces, then the
    character that is cut off with them is not seen, because it stands behind a NUL or is one. -/
def ComesThrough (t : Bytes) (n : Nat) : Prop :=
  t ≠ [] ∧ (n = 0 ∨ 0 ∈ percentDecode t.dropLast ∨ t.getLast? = some 0)

/-- **Whether a padded text comes through unescaped.** -/
theorem comesThrough_iff (hcurl : ∀ s, curlUnescape s = percentDecode s) (ht : NoOuterSpaces t) (m n : Nat) :
    (removeLeadingAndEndingSpaces (spaces m ++ (t ++ spaces n))).map (unescapeUrl curlUnescape) =
      some (unescapeUrl curlUnescape t) ↔ ComesThrough t n := by
  rw [removeLeadingAndEndingSpaces_padded ht]
  obtain rfl | ⟨u, c, rfl⟩ := List.eq_nil_or_concat' t
  · simp [ComesThrough]
  · have hne : u ++ [c] ≠ [] := List.append_ne_nil_of_right_ne_nil u (List.cons_ne_nil c [])
    rw [if_neg hne, Option.map_some, Option.some.injEq, ComesThrough, List.dropLast_concat, List.getLast?_concat,
      and_iff_right hne]
    by_cases hn : n = 0
    · simp [hn]
    · rw [if_neg hn, unescapeUrl, unescapeUrl, hcurl, hcurl, eq_comm, cStr_percentDecode_concat,
        or_iff_right hn, Option.some.injEq]

/-- **Which padded pairs `getPairGET` reads.** -/
theorem getPairGET_padded_iff (hcurl : ∀ s, curlUnescape s = percentDecode s) (h61 : 61 ∉ k)
    (hk : NoOuterSpaces k) (hv : NoOuterSpaces v) (i j m n : Nat) (kv : Bytes × Bytes) :
    getPairGET curlUnescape (spaces i ++ (k ++ spaces j) ++ 61 :: (spaces m ++ (v ++ spaces n))) kv =
        some (true, unescapeUrl curlUnescape k, unescapeUrl curlUnescape v) ↔
      ComesThrough k j ∧ ComesThrough v n := by
  have hspaces : ∀ l, 61 ∉ spaces l := fun l hmem => absurd (List.eq_of_mem_replicate hmem) (by decide)
  have hp : 61 ∉ spaces i ++ (k ++ spaces j) := by
    simp [hspaces, h61]
  rw [getPairGET_pair hp, ← comesThrough_iff hcurl hk i j, ← comesThrough_iff hcurl hv m n]
  cases removeLeadingAndEndingSpaces (spaces i ++ (k ++ spaces j)) <;>
    cases removeLeadingAndEndingSpaces (spaces m ++ (v ++ spaces n)) <;> simp

/-- **When trimming is exact**, and when `getPairGET` reads a padded pair. -/
theorem trimming_iff (hcurl : ∀ s, curlUnescape s = percentDecode s) :
    (∀ s, TrimsExactly s ↔ ∃ c, s.getLast? = some c ∧ c ≠ 32) ∧
      ∀ k v i j m n kv, 61 ∉ k → NoOuterSpaces k → NoOuterSpaces v →
        (getPairGET curlUnescape (spaces i ++ (k ++ spaces j) ++ 61 :: (spaces m ++ (v ++ spaces n))) kv =
            some (true, unescapeUrl curlUnescape k, unescapeUrl curlUnescape v) ↔
          ComesThrough k j ∧ ComesThrough v n) :=
  ⟨trimsExactly_iff, fun _ _ i j m n kv h61 hk hv => getPairGET_padded_iff hcurl h61 hk hv i j m n kv⟩

/-- `" k= v"`. -/
theorem trimming_iff_pair :
    getPairGET percentDecode (spaces 1 ++ (ascii "k" ++ spaces 0) ++ 61 :: (spaces 1 ++ (ascii "v" ++ spaces 0)))
        ([], []) = some (true, unescapeUrl percentDecode (ascii "k"), unescapeUrl percentDecode (ascii "v")) :=
  ((trimming_iff (fun _ => rfl)).2 (ascii "k") (ascii "v") 1 0 1 0 ([], []) (by decide +kernel)
    ⟨by decide +kernel, by decide +kernel⟩ ⟨by decide +kernel, by decide +kernel⟩).mpr
      ⟨⟨by decide +kernel, Or.inl rfl⟩, ⟨by decide +kernel, Or.inl rfl⟩⟩

/-- **A space behind a word costs its last letter**, in `removeLeadingAndEndingSpaces` and in `getPairGET`, and
    without a word the helper reads outside. -/
theorem trimming_loses_a_letter :
    removeLeadingAndEndingSpaces (ascii "ab ") = some (ascii "a") ∧ ¬ TrimsExactly (ascii "ab ") ∧
      removeLeadingAndEndingSpaces [] = none ∧ removeLeadingAndEndingSpaces (ascii " ") = none ∧
      getPairGET percentDecode (ascii "key =v") ([], []) = some (true, ascii "ke", ascii "v") := by
  have hab : ¬ ∃ c, (ascii "ab ").getLast? = some c ∧ c ≠ 32 := by
    have hlast : (ascii "ab ").getLast? = some 32 := by decide +kernel
    rw [hlast]
    rintro ⟨c, hc, hne⟩
    exact hne (Option.some.inj hc).symm
  refine ⟨by decide +kernel, fun h => hab ((trimsExactly_iff _).mp h), by decide +kernel, ?_, by decide +kernel⟩
  exact removeLeadingAndEndingSpaces_padded (t := []) ⟨by decide, by decide⟩ 1 0

end Strings
end Hiaux
