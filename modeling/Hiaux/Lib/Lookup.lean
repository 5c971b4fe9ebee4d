import Std.Data.ExtTreeMap.Lemmas

/-!
# `Lib.Lookup` — what a table holds after a change

What is found under a key when another key, or the same, has been entered or taken out; stated for what is
found rather than for the lookup as a whole, which is how an invariant of a table uses it.
-/

namespace Lib

variable {κ β : Type} {cmp : κ → κ → Ordering} [Std.TransCmp cmp] [Std.LawfulEqCmp cmp]
  {m : Std.ExtTreeMap κ β cmp} {k k' : κ} {v v' : β}

/-- **An entry is taken out.** -/
theorem getElem?_erase_iff : (m.erase k)[k']? = some v ↔ k' ≠ k ∧ m[k']? = some v := by
  rw [Std.ExtTreeMap.getElem?_erase]
  by_cases hk : cmp k k' = .eq
  · obtain rfl := Std.LawfulEqCmp.eq_of_compare hk
    simp
  · have hne : k' ≠ k := by
      rintro rfl
      exact hk Std.ReflCmp.compare_self
    simp [hk, hne]

theorem getElem?_of_erase (h : (m.erase k)[k']? = some v) : m[k']? = some v := (getElem?_erase_iff.mp h).2

omit [Std.LawfulEqCmp cmp] in
/-- What is found is not the default. -/
theorem getD_of_getElem? (h : m[k]? = some v) (d : β) : m.getD k d = v := by
  rw [Std.ExtTreeMap.getD_eq_getD_getElem?, h]
  rfl

/-- What is found after an entry that does not replace another. -/
theorem getElem?_insertIfNew (h : (m.insertIfNew k v)[k']? = some v') :
    (k' = k ∧ v' = v) ∨ m[k']? = some v' := by
  rw [Std.ExtTreeMap.getElem?_insertIfNew] at h
  split at h
  · rename_i heq
    exact Or.inl ⟨(Std.LawfulEqCmp.eq_of_compare heq.1).symm, (Option.some.inj h).symm⟩
  · exact Or.inr h

theorem getElem?_insertIfNew_of_some (k : κ) (v : β) (h : m[k']? = some v') :
    (m.insertIfNew k v)[k']? = some v' := by
  rw [Std.ExtTreeMap.getElem?_insertIfNew, if_neg]
  · exact h
  · rintro ⟨heq, hnot⟩
    obtain rfl := Std.LawfulEqCmp.eq_of_compare heq
    refine hnot ?_
    rw [Std.ExtTreeMap.mem_iff_isSome_getElem?, h]
    rfl

/-- **An entry under a new key.** -/
theorem getElem?_insertIfNew_iff (hnew : m[k]? = none) :
    (m.insertIfNew k v)[k']? = some v' ↔ (k' = k ∧ v' = v) ∨ m[k']? = some v' := by
  constructor
  · exact getElem?_insertIfNew
  · rintro (⟨rfl, rfl⟩ | h)
    · rw [Std.ExtTreeMap.getElem?_insertIfNew, if_pos]
      refine ⟨Std.ReflCmp.compare_self, ?_⟩
      rw [Std.ExtTreeMap.mem_iff_isSome_getElem?, hnew]
      simp
    · exact getElem?_insertIfNew_of_some k v h

/-- A table in which nothing is found. -/
theorem eq_empty_of_getElem? (h : ∀ (k : κ) (v : β), m[k]? ≠ some v) : m = ∅ :=
  Std.ExtTreeMap.ext_getElem? fun k => (Option.eq_none_iff_forall_ne_some.mpr (h k)).trans (by simp)

/-- What is found in a list with one more entry at its end. -/
theorem getElem?_concat_cases {α : Type} {l : List α} {i : Nat} {a b : α} (h : (l ++ [a])[i]? = some b) :
    l[i]? = some b ∨ (i = l.length ∧ b = a) := by
  by_cases hi : i < l.length
  · exact Or.inl (by rwa [List.getElem?_append_left hi] at h)
  · have hlt := (List.getElem?_eq_some_iff.mp h).1
    rw [List.length_append, List.length_singleton] at hlt
    obtain rfl : i = l.length := by omega
    rw [List.getElem?_concat_length] at h
    exact Or.inr ⟨rfl, (Option.some.inj h).symm⟩

end Lib
