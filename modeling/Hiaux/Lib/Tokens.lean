import Mathlib.Data.List.Infix
import Mathlib.Data.List.TakeWhile

/-!
# `Lib.Tokens` — maximal runs

`tokens delim s` are the maximal non-empty runs of elements of `s` that are no delimiters, in their order in
`s`. They are read in one pass; `Tokenizes` says what they are without reading (`tokenizes_iff`). A text can
be cut first by one kind of delimiters and the tokens then by another (`flatMap_tokens`).

`squeezeFrom` does the opposite: it keeps what stands between the delimiters, and the first delimiter of every
run of them (`squeezes_iff`).
-/

namespace Lib

variable {α : Type}

/-- A token that has ended, unless it is empty. -/
def emit (cur : List α) (rest : List (List α)) : List (List α) :=
  match cur with
  | [] => rest
  | c :: cur => (c :: cur) :: rest

/-- The tokens of a text, where `cur` is what has been read of the current one. -/
def tokensFrom (delim : α → Bool) (cur : List α) : List α → List (List α)
  | [] => emit cur []
  | c :: s => if delim c then emit cur (tokensFrom delim [] s) else tokensFrom delim (cur ++ [c]) s

/-- The maximal non-empty runs of elements that are no delimiters. -/
def tokens (delim : α → Bool) (s : List α) : List (List α) := tokensFrom delim [] s

/-- A list of tokens cut out of a text: between two of them stands a delimiter, and nothing but delimiters
    stands outside them. -/
inductive Tokenizes (delim : α → Bool) : List α → List (List α) → Prop
  | nil : Tokenizes delim [] []
  | skip {c s ts} : delim c = true → Tokenizes delim s ts → Tokenizes delim (c :: s) ts
  | last {t} : t ≠ [] → (∀ c ∈ t, delim c = false) → Tokenizes delim t [t]
  | run {t c s ts} : t ≠ [] → (∀ c ∈ t, delim c = false) → delim c = true → Tokenizes delim s ts →
      Tokenizes delim (t ++ c :: s) (t :: ts)

variable {delim : α → Bool} {c : α} {s t cur : List α} {ts : List (List α)}

@[simp] theorem emit_nil (ts : List (List α)) : emit [] ts = ts := rfl

theorem emit_of_ne_nil (h : cur ≠ []) (ts : List (List α)) : emit cur ts = cur :: ts := by
  cases cur with
  | nil => exact absurd rfl h
  | cons c cur => rfl

theorem emit_append (cur : List α) (ts ts' : List (List α)) : emit cur (ts ++ ts') = emit cur ts ++ ts' := by
  cases cur <;> rfl

@[simp] theorem tokens_nil (delim : α → Bool) : tokens delim [] = [] := rfl

theorem tokens_cons_delim (h : delim c = true) (s : List α) : tokens delim (c :: s) = tokens delim s := by
  rw [tokens, tokensFrom, if_pos h]
  rfl

/-! ## One pass -/

/-- Elements that are no delimiters are added to the current token. -/
theorem tokensFrom_append (ht : ∀ c ∈ t, delim c = false) (cur s : List α) :
    tokensFrom delim cur (t ++ s) = tokensFrom delim (cur ++ t) s := by
  induction t generalizing cur with
  | nil => simp
  | cons c t ih =>
      obtain ⟨hc, ht⟩ := List.forall_mem_cons.mp ht
      rw [List.cons_append, tokensFrom, if_neg (by simp [hc]), ih ht, List.append_assoc]
      rfl

theorem tokens_of_plain (ht : ∀ c ∈ t, delim c = false) : tokens delim t = emit t [] := by
  have happ := tokensFrom_append ht [] []
  rwa [List.append_nil, List.nil_append] at happ

/-- A delimiter ends what stands before it. -/
theorem tokensFrom_append_delim (hc : delim c = true) (cur t s : List α) :
    tokensFrom delim cur (t ++ c :: s) = tokensFrom delim cur t ++ tokens delim s := by
  induction t generalizing cur with
  | nil =>
      have hnil : tokensFrom delim cur [] = emit cur [] := rfl
      rw [List.nil_append, hnil, tokensFrom, if_pos hc, ← emit_append]
      rfl
  | cons d t ih =>
      rw [List.cons_append, tokensFrom, tokensFrom]
      split
      · rw [ih, ← emit_append]
      · exact ih _

theorem tokens_append_delim (hc : delim c = true) (t s : List α) :
    tokens delim (t ++ c :: s) = tokens delim t ++ tokens delim s :=
  tokensFrom_append_delim hc [] t s

theorem forall_mem_concat (hcur : ∀ c ∈ cur, delim c = false) (hc : delim c = false) :
    ∀ d ∈ cur ++ [c], delim d = false := by
  intro d hd
  rcases List.mem_append.mp hd with hd | hd
  · exact hcur d hd
  · exact List.mem_singleton.mp hd ▸ hc

theorem tokenizes_tokensFrom (s : List α) (hcur : ∀ c ∈ cur, delim c = false) :
    Tokenizes delim (cur ++ s) (tokensFrom delim cur s) := by
  induction s generalizing cur with
  | nil =>
      rw [List.append_nil]
      cases cur with
      | nil => exact .nil
      | cons c cur => exact .last (List.cons_ne_nil c cur) hcur
  | cons d s ih =>
      rw [tokensFrom]
      split
      · rename_i hd
        have hs := ih (List.forall_mem_nil _)
        rw [List.nil_append] at hs
        cases cur with
        | nil => exact .skip hd hs
        | cons c cur => exact .run (List.cons_ne_nil c cur) hcur hd hs
      · rename_i hd
        have hs := ih (forall_mem_concat hcur (Bool.eq_false_iff.mpr hd))
        rwa [List.append_assoc] at hs

/-- **What tokens are.** There is one way to cut a text into tokens, and `tokens` finds it. -/
theorem tokenizes_iff : Tokenizes delim s ts ↔ tokens delim s = ts := by
  constructor
  · intro h
    induction h with
    | nil => rfl
    | skip hc _ ih => rw [tokens_cons_delim hc, ih]
    | last hne ht => rw [tokens_of_plain ht, emit_of_ne_nil hne]
    | run hne ht hc _ ih =>
        rw [tokens_append_delim hc, tokens_of_plain ht, emit_of_ne_nil hne, ih]
        rfl
  · rintro rfl
    exact tokenizes_tokensFrom s (List.forall_mem_nil _)

theorem tokens_eq_nil_iff : tokens delim s = [] ↔ ∀ c ∈ s, delim c = true := by
  constructor
  · intro h
    have hnil : Tokenizes delim s [] := tokenizes_iff.mpr h
    clear h
    generalize hts : ([] : List (List α)) = ts at hnil
    induction hnil with
    | nil => exact List.forall_mem_nil _
    | skip hc _ ih => exact List.forall_mem_cons.mpr ⟨hc, ih hts⟩
    | last _ _ => cases hts
    | run _ _ _ _ _ => cases hts
  · intro h
    induction s with
    | nil => rfl
    | cons c s ih =>
        obtain ⟨hc, hs⟩ := List.forall_mem_cons.mp h
        rw [tokens_cons_delim hc, ih hs]

/-- The tokens of a text are not empty, and have no delimiters. -/
theorem mem_tokens (h : t ∈ tokens delim s) : t ≠ [] ∧ ∀ c ∈ t, delim c = false := by
  have hts : Tokenizes delim s (tokens delim s) := tokenizes_iff.mpr rfl
  generalize tokens delim s = ts at h hts
  induction hts with
  | nil => cases h
  | skip _ _ ih => exact ih h
  | last hne ht => exact List.mem_singleton.mp h ▸ ⟨hne, ht⟩
  | run hne ht _ _ ih =>
      rcases List.mem_cons.mp h with rfl | h
      · exact ⟨hne, ht⟩
      · exact ih h

/-- Tokens with a delimiter behind each are read again, and then what follows. -/
theorem tokens_flatMap_append (hc : delim c = true) (hts : ∀ t ∈ ts, t ≠ [] ∧ ∀ d ∈ t, delim d = false)
    (s : List α) : tokens delim (ts.flatMap (· ++ [c]) ++ s) = ts ++ tokens delim s := by
  induction ts with
  | nil => rfl
  | cons t ts ih =>
      obtain ⟨⟨hne, ht⟩, hts⟩ := List.forall_mem_cons.mp hts
      have hassoc : (t :: ts).flatMap (· ++ [c]) ++ s = t ++ c :: (ts.flatMap (· ++ [c]) ++ s) := by simp
      rw [hassoc, tokens_append_delim hc, tokens_of_plain ht, emit_of_ne_nil hne, ih hts]
      rfl

/-- Tokens joined by one delimiter, as tokens with the delimiter behind each but the last. -/
theorem intercalate_concat (c : α) (ts : List (List α)) (t : List α) :
    [c].intercalate (ts ++ [t]) = ts.flatMap (· ++ [c]) ++ t := by
  induction ts with
  | nil => exact List.intercalate_singleton
  | cons u ts ih =>
      rw [List.cons_append, List.intercalate_cons_of_ne_nil (by simp), ih, List.flatMap_cons]
      simp

/-- Tokens are parts of their text. -/
theorem infix_of_mem_tokens (h : t ∈ tokens delim s) : t <:+: s := by
  have hts : Tokenizes delim s (tokens delim s) := tokenizes_iff.mpr rfl
  generalize tokens delim s = ts at h hts
  induction hts with
  | nil => cases h
  | skip _ _ ih => exact List.infix_cons (ih h)
  | last _ _ => exact List.mem_singleton.mp h ▸ List.infix_refl _
  | @run u c s ts _ _ _ _ ih =>
      rcases List.mem_cons.mp h with rfl | h
      · exact ⟨[], c :: s, by simp⟩
      · exact (ih h).trans ⟨u ++ [c], [], by simp⟩

/-- There are not more tokens than delimiters, but for the last. -/
theorem length_flatMap_tokens (delim : α → Bool) (c : α) (s : List α) :
    ((tokens delim s).flatMap (· ++ [c])).length ≤ s.length + 1 := by
  have hts : Tokenizes delim s (tokens delim s) := tokenizes_iff.mpr rfl
  generalize tokens delim s = ts at hts
  induction hts with
  | nil => exact Nat.zero_le _
  | skip _ _ ih => exact Nat.le_succ_of_le ih
  | last _ _ => simp
  | run _ _ _ _ ih =>
      simp only [List.flatMap_cons, List.length_append, List.length_cons, List.length_nil] at ih ⊢
      omega

/-- **Joined tokens are read again.** -/
theorem tokens_intercalate (hc : delim c = true) (hts : ∀ t ∈ ts, t ≠ [] ∧ ∀ d ∈ t, delim d = false) :
    tokens delim ([c].intercalate ts) = ts := by
  rcases List.eq_nil_or_concat' ts with rfl | ⟨ts, t, rfl⟩
  · rfl
  · obtain ⟨hts, hlast⟩ := List.forall_mem_append.mp hts
    obtain ⟨hne, ht⟩ := List.forall_mem_singleton.mp hlast
    rw [intercalate_concat, tokens_flatMap_append hc hts, tokens_of_plain ht, emit_of_ne_nil hne]

/-! ## Several kinds of delimiters -/

theorem tokensFrom_congr {delim' : α → Bool} (h : ∀ c ∈ s, delim c = delim' c) (cur : List α) :
    tokensFrom delim cur s = tokensFrom delim' cur s := by
  induction s generalizing cur with
  | nil => rfl
  | cons c s ih =>
      obtain ⟨hc, hs⟩ := List.forall_mem_cons.mp h
      rw [tokensFrom, tokensFrom, hc, ih hs, ih hs]

theorem tokens_congr {delim' : α → Bool} (h : ∀ c ∈ s, delim c = delim' c) :
    tokens delim s = tokens delim' s :=
  tokensFrom_congr h []

theorem flatMap_emit {delim' : α → Bool} (hcur : ∀ c ∈ cur, delim c = false) (ts : List (List α)) :
    (emit cur ts).flatMap (tokens delim') =
      tokens (fun c => delim c || delim' c) cur ++ ts.flatMap (tokens delim') := by
  have hcongr : tokens (fun c => delim c || delim' c) cur = tokens delim' cur :=
    tokens_congr fun c hc => by rw [hcur c hc, Bool.false_or]
  rw [hcongr]
  cases cur <;> rfl

theorem flatMap_tokensFrom {delim' : α → Bool} (hcur : ∀ c ∈ cur, delim c = false) (s : List α) :
    (tokensFrom delim cur s).flatMap (tokens delim') = tokens (fun c => delim c || delim' c) (cur ++ s) := by
  induction s generalizing cur with
  | nil => rw [tokensFrom, flatMap_emit hcur, List.append_nil, List.flatMap_nil, List.append_nil]
  | cons d s ih =>
      rw [tokensFrom]
      split
      · rename_i hd
        rw [flatMap_emit hcur, ih (List.forall_mem_nil _), List.nil_append,
          tokens_append_delim (by rw [hd, Bool.true_or])]
      · rename_i hd
        rw [ih (forall_mem_concat hcur (Bool.eq_false_iff.mpr hd)), List.append_assoc]
        rfl

/-- **Cutting twice** is cutting once by both kinds of delimiters. -/
theorem flatMap_tokens {delim' : α → Bool} (s : List α) :
    (tokens delim s).flatMap (tokens delim') = tokens (fun c => delim c || delim' c) s :=
  flatMap_tokensFrom (List.forall_mem_nil _) s

/-! ## Runs of delimiters -/

/-- The text with every maximal run of delimiters reduced to its first one. `prev` says whether a delimiter
    stands before the text. -/
def squeezeFrom (delim : α → Bool) (prev : Bool) : List α → List α
  | [] => []
  | c :: s => if delim c && prev then squeezeFrom delim prev s else c :: squeezeFrom delim (delim c) s

/-- `t` is `s` with every maximal run of delimiters reduced to its first one: `r` is the rest of such a run. -/
inductive Squeezes (delim : α → Bool) : List α → List α → Prop
  | nil : Squeezes delim [] []
  | keep {c : α} {s t : List α} : delim c = false → Squeezes delim s t → Squeezes delim (c :: s) (c :: t)
  | run {c : α} {r s t : List α} : delim c = true → (∀ d ∈ r, delim d = true) →
      (∀ d, s.head? = some d → delim d = false) → Squeezes delim s t → Squeezes delim (c :: (r ++ s)) (c :: t)

theorem squeezeFrom_keep (hc : delim c = false) (prev : Bool) (s : List α) :
    squeezeFrom delim prev (c :: s) = c :: squeezeFrom delim false s := by
  rw [squeezeFrom, if_neg (by simp [hc]), hc]

theorem squeezeFrom_first (hc : delim c = true) (s : List α) :
    squeezeFrom delim false (c :: s) = c :: squeezeFrom delim true s := by
  rw [squeezeFrom, if_neg (by simp), hc]

/-- The rest of a run is left out. -/
theorem squeezeFrom_run {r : List α} (hr : ∀ d ∈ r, delim d = true) (s : List α) :
    squeezeFrom delim true (r ++ s) = squeezeFrom delim true s := by
  induction r with
  | nil => rfl
  | cons d r ih =>
      obtain ⟨hd, hr⟩ := List.forall_mem_cons.mp hr
      rw [List.cons_append, squeezeFrom, if_pos (by simp [hd]), ih hr]

/-- Behind a run it does not matter that there was one. -/
theorem squeezeFrom_behind (hs : ∀ d, s.head? = some d → delim d = false) :
    squeezeFrom delim true s = squeezeFrom delim false s := by
  cases s with
  | nil => rfl
  | cons d s => rw [squeezeFrom_keep (hs d rfl), squeezeFrom_keep (hs d rfl)]

/-- No delimiter comes first behind a delimiter. -/
theorem squeezeFrom_true_head (s : List α) {t : List α} (h : squeezeFrom delim true s = c :: t) :
    delim c = false := by
  induction s with
  | nil => cases h
  | cons d s ih =>
      rw [squeezeFrom] at h
      split at h
      · exact ih h
      · rename_i hd
        obtain ⟨rfl, -⟩ := List.cons.inj h
        simpa using hd

/-- **What is left of a text.** -/
theorem squeezes_iff : Squeezes delim s t ↔ t = squeezeFrom delim false s := by
  constructor
  · intro h
    induction h with
    | nil => rfl
    | keep hc _ ih => rw [squeezeFrom_keep hc, ih]
    | run hc hr hs _ ih => rw [squeezeFrom_first hc, squeezeFrom_run hr, squeezeFrom_behind hs, ih]
  · rintro rfl
    induction hn : s.length using Nat.strongRecOn generalizing s with
    | ind n ih =>
        cases s with
        | nil => exact .nil
        | cons c s =>
            by_cases hc : delim c = true
            · have hrun : ∀ d ∈ s.takeWhile delim, delim d = true := fun d hd => List.mem_takeWhile_imp hd
              have hrest : ∀ d, (s.dropWhile delim).head? = some d → delim d = false := by
                intro d hd
                have hnot := List.head?_dropWhile_not delim s
                rwa [hd] at hnot
              have hlen := (List.dropWhile_suffix (l := s) delim).length_le
              have hstep := ih _ (by rw [← hn]; exact Nat.lt_succ_of_le hlen) (s := s.dropWhile delim) rfl
              rw [squeezeFrom_first hc, ← List.takeWhile_append_dropWhile (p := delim) (l := s),
                squeezeFrom_run hrun, squeezeFrom_behind hrest]
              exact .run hc hrun hrest hstep
            · have hc := Bool.eq_false_iff.mpr hc
              rw [squeezeFrom_keep hc]
              exact .keep hc (ih s.length (by rw [← hn]; exact Nat.lt_succ_self _) rfl)

end Lib
