import Mathlib.Data.List.Infix

/-!
# `Lib.Pairing` — what comes out in order is paired by position

A queue whose entries are answered from the front: as many answers as there are entries are paired with
them, and the entries behind stay. What has been paired is a list of pairs.
-/

namespace Lib

variable {α β : Type}

/-- The entries paired, and those left, are all entries. -/
theorem map_fst_zip_append_drop (as : List α) (bs : List β) :
    (as.zip bs).map Prod.fst ++ as.drop bs.length = as := by
  rw [List.zip_eq_zip_take_min, List.map_fst_zip (by simp)]
  rcases Nat.le_total as.length bs.length with hle | hle
  · rw [Nat.min_eq_left hle, List.take_length, List.drop_eq_nil_of_le hle, List.append_nil]
  · rw [Nat.min_eq_right hle, List.take_append_drop]

/-- The answers paired are the first ones, one for each entry. -/
theorem map_snd_zip_eq_take (as : List α) (bs : List β) :
    (as.zip bs).map Prod.snd = bs.take as.length := by
  rw [List.zip_eq_zip_take_min, List.map_snd_zip (by simp), List.take_eq_take_iff]
  simp

/-- **What is paired first.** With the entries paired in their order, the first answers are paired with the
    first entries if they are the first of the answers paired. -/
theorem zip_prefix_iff {as : List α} {bs : List β} {pairs : List (α × β)} (hfst : pairs.map Prod.fst <+: as)
    (hlen : bs.length ≤ as.length) : as.zip bs <+: pairs ↔ bs <+: pairs.map Prod.snd := by
  constructor
  · intro h
    have hmap := h.map Prod.snd
    rwa [List.map_snd_zip hlen] at hmap
  · clear hlen
    intro h
    induction pairs generalizing as bs with
    | nil =>
        obtain rfl : bs = [] := List.prefix_nil.mp h
        rw [List.zip_nil_right]
    | cons p pairs ih =>
        obtain ⟨a, b⟩ := p
        obtain ⟨left, rfl⟩ := hfst
        cases bs with
        | nil =>
            rw [List.zip_nil_right]
            exact List.nil_prefix
        | cons b' bs =>
            obtain ⟨rfl, hbs⟩ := List.cons_prefix_cons.mp h
            exact List.cons_prefix_cons.mpr ⟨rfl, ih (List.prefix_append _ left) hbs⟩

/-- A list that begins like another goes on like it. -/
theorem take_append_prefix_append_iff {os os₁ os₂ : List α} {n : Nat} (h : os.length ≤ n) :
    (os ++ os₁).take n <+: os ++ os₂ ↔ os₁.take (n - os.length) <+: os₂ := by
  rw [List.take_append, List.take_of_length_le h, List.prefix_append_right_inj]

end Lib
