import Mathlib.Data.List.Induction
import Std.Data.ExtTreeMap

/-!
# `Lib.LastWrite` — tables written by a history

A table that some events of a history write to: `w` says which entry an event writes, if any. What a lookup
finds afterwards is the last entry written under the key, or what the table held before (`getElem?_writes`).
-/

namespace Lib

variable {κ ι β : Type}

/-- The value an event writes under a key. -/
def written [DecidableEq κ] (w : ι → Option (κ × β)) (k : κ) (i : ι) : Option β :=
  match w i with
  | some (k', v) => if k' = k then some v else none
  | none => none

/-- The value of the last write under a key. -/
def lastWrite [DecidableEq κ] (w : ι → Option (κ × β)) (k : κ) : List ι → Option β
  | [] => none
  | i :: is => (lastWrite w k is).or (written w k i)

section History

variable [DecidableEq κ] {w : ι → Option (κ × β)} {k : κ}

theorem written_eq_some_iff {i : ι} {v : β} : written w k i = some v ↔ w i = some (k, v) := by
  unfold written
  cases w i with
  | none => simp
  | some kv =>
      obtain ⟨k', v'⟩ := kv
      by_cases hk : k' = k
      · simp [hk]
      · simp [hk]

/-- A value that is found was written. -/
theorem exists_of_lastWrite {is : List ι} {v : β} (h : lastWrite w k is = some v) :
    ∃ i ∈ is, w i = some (k, v) := by
  induction is with
  | nil => exact absurd h (by simp [lastWrite])
  | cons i is ih =>
      rcases Option.or_eq_some_iff.mp h with hlast | ⟨-, hi⟩
      · obtain ⟨j, hj, hw⟩ := ih hlast
        exact ⟨j, List.mem_cons_of_mem _ hj, hw⟩
      · exact ⟨i, List.mem_cons_self, written_eq_some_iff.mp hi⟩

/-- A key that was written has a last value. -/
theorem exists_lastWrite {is : List ι} {i : ι} {v : β} (hi : i ∈ is) (hw : w i = some (k, v)) :
    ∃ v', lastWrite w k is = some v' := by
  induction is with
  | nil => exact absurd hi List.not_mem_nil
  | cons j is ih =>
      cases hlast : lastWrite w k is with
      | some v' => exact ⟨v', by simp [lastWrite, hlast]⟩
      | none =>
          rcases List.mem_cons.mp hi with rfl | hi
          · exact ⟨v, by simp [lastWrite, hlast, written_eq_some_iff.mpr hw]⟩
          · obtain ⟨v', hv'⟩ := ih hi
            exact absurd (hlast.symm.trans hv') (by simp)

/-- The last write under a key is there exactly if there is a write. -/
theorem lastWrite_isSome_iff {is : List ι} :
    (lastWrite w k is).isSome = true ↔ ∃ i ∈ is, ∃ v, w i = some (k, v) := by
  constructor
  · intro h
    obtain ⟨v, hv⟩ := Option.isSome_iff_exists.mp h
    obtain ⟨i, hi, hw⟩ := exists_of_lastWrite hv
    exact ⟨i, hi, v, hw⟩
  · rintro ⟨i, hi, v, hw⟩
    obtain ⟨v', hv'⟩ := exists_lastWrite hi hw
    exact Option.isSome_iff_exists.mpr ⟨v', hv'⟩

/-- The last event about a key decides a table that it writes to, if every write to the table under the key
    is an event about it. -/
theorem lastWrite_of_lastEvent {about : ι → Option (κ × ι)} (hself : ∀ {i j k}, about i = some (k, j) → j = i)
    (hsub : ∀ {i k v}, w i = some (k, v) → about i = some (k, i)) {is : List ι} {i : ι} {v : β}
    (hlast : lastWrite about k is = some i) (hi : w i = some (k, v)) : lastWrite w k is = some v := by
  induction is with
  | nil => exact absurd hlast (by simp [lastWrite])
  | cons j is ih =>
      rcases Option.or_eq_some_iff.mp hlast with hlater | ⟨hnone, hj⟩
      · rw [lastWrite, ih hlater]
        rfl
      · -- nothing about the key comes later, so nothing is written under it later
        have hnowrite : lastWrite w k is = none := by
          rw [← Option.not_isSome_iff_eq_none, lastWrite_isSome_iff]
          rintro ⟨i', hi', v', hw⟩
          obtain ⟨j', hj'⟩ := exists_lastWrite hi' (hsub hw)
          exact absurd (hnone.symm.trans hj') (by simp)
        obtain rfl := hself (written_eq_some_iff.mp hj)
        rw [lastWrite, hnowrite, written_eq_some_iff.mpr hi]
        rfl

/-! ## Tables -/

variable [Ord κ] [Std.TransOrd κ] [Std.LawfulEqOrd κ]

/-- The table after an event. -/
def writeEntry (w : ι → Option (κ × β)) (m : Std.ExtTreeMap κ β) (i : ι) : Std.ExtTreeMap κ β :=
  match w i with
  | some (k', v) => m.insert k' v
  | none => m

theorem getElem?_writeEntry (m : Std.ExtTreeMap κ β) (i : ι) :
    (writeEntry w m i)[k]? = (written w k i).or m[k]? := by
  unfold writeEntry written
  cases w i with
  | none => rfl
  | some kv =>
      obtain ⟨k', v⟩ := kv
      show (m.insert k' v)[k]? = (if k' = k then some v else none).or m[k]?
      rw [Std.ExtTreeMap.getElem?_insert]
      by_cases hk : k' = k
      · simp [hk]
      · simp [hk]

variable (w k) in
/-- **Lookups find the last write**, in the table of a system some of whose events write to it. -/
theorem getElem?_writes {σ : Type} (step : σ → ι → σ) (table : σ → Std.ExtTreeMap κ β)
    (hstep : ∀ s i, table (step s i) = writeEntry w (table s) i) (s : σ) (is : List ι) :
    (table (is.foldl step s))[k]? = (lastWrite w k is).or (table s)[k]? := by
  induction is generalizing s with
  | nil => rfl
  | cons i is ih =>
      show (table (is.foldl step (step s i)))[k]? = ((lastWrite w k is).or (written w k i)).or (table s)[k]?
      rw [ih, hstep, getElem?_writeEntry, Option.or_assoc]

end History

/-! ## Assigning entries -/

variable [Ord κ] [Std.TransOrd κ] [Std.LawfulEqOrd κ] {k : κ}

/-- A table after some entries are assigned, one by one. -/
def assignAll (m : Std.ExtTreeMap κ β) (l : List (κ × β)) : Std.ExtTreeMap κ β :=
  l.foldl (fun acc kv => acc.insert kv.1 kv.2) m

theorem getElem?_assignAll_of_not_mem {l : List (κ × β)} (m : Std.ExtTreeMap κ β)
    (h : k ∉ l.map Prod.fst) : (assignAll m l)[k]? = m[k]? := by
  induction l generalizing m with
  | nil => rfl
  | cons kv l ih =>
      obtain ⟨hne, hnot⟩ := not_or.mp (fun hmem => h (List.mem_cons.mpr hmem))
      show (assignAll (m.insert kv.1 kv.2) l)[k]? = m[k]?
      rw [ih (m.insert kv.1 kv.2) hnot, Std.ExtTreeMap.getElem?_insert,
        if_neg fun hcmp => hne (Std.LawfulEqCmp.eq_of_compare hcmp).symm]

/-- Entries with distinct keys are all found. -/
theorem getElem?_assignAll_of_mem {l : List (κ × β)} {v : β} (m : Std.ExtTreeMap κ β)
    (hdistinct : (l.map Prod.fst).Nodup) (h : (k, v) ∈ l) : (assignAll m l)[k]? = some v := by
  induction l generalizing m with
  | nil => exact absurd h List.not_mem_nil
  | cons kv l ih =>
      obtain ⟨hnot, hdistinct⟩ := List.nodup_cons.mp hdistinct
      show (assignAll (m.insert kv.1 kv.2) l)[k]? = some v
      rcases List.mem_cons.mp h with rfl | h
      · rw [getElem?_assignAll_of_not_mem _ hnot, Std.ExtTreeMap.getElem?_insert_self]
      · exact ih _ hdistinct h

theorem mem_assignAll {l : List (κ × β)} {m : Std.ExtTreeMap κ β} :
    k ∈ assignAll m l ↔ k ∈ m ∨ k ∈ l.map Prod.fst := by
  induction l generalizing m with
  | nil => simp [assignAll]
  | cons kv l ih =>
      have hstep : assignAll m (kv :: l) = assignAll (m.insert kv.1 kv.2) l := rfl
      rw [hstep, ih, Std.ExtTreeMap.mem_insert, Std.LawfulEqCmp.compare_eq_iff_eq, List.map_cons, List.mem_cons, eq_comm,
        or_assoc, or_left_comm]

theorem getElem?_assignAll_eq_none_iff {l : List (κ × β)} :
    (assignAll (∅ : Std.ExtTreeMap κ β) l)[k]? = none ↔ k ∉ l.map Prod.fst := by
  rw [← Option.not_isSome_iff_eq_none, ← Std.ExtTreeMap.mem_iff_isSome_getElem?, mem_assignAll]
  simp

/-- **What is found is the last assignment** under the key. -/
theorem getElem?_assignAll_eq_some_iff {l : List (κ × β)} {v : β} :
    (assignAll (∅ : Std.ExtTreeMap κ β) l)[k]? = some v ↔
      ∃ pre post, l = pre ++ (k, v) :: post ∧ k ∉ post.map Prod.fst := by
  constructor
  · induction l using List.reverseRecOn with
    | nil => exact fun h => absurd h (by simp [assignAll])
    | append_singleton l kv ih =>
        intro h
        have hlast : assignAll (∅ : Std.ExtTreeMap κ β) (l ++ [kv]) = (assignAll ∅ l).insert kv.1 kv.2 := by
          simp [assignAll]
        rw [hlast, Std.ExtTreeMap.getElem?_insert] at h
        split at h
        · rename_i hk
          obtain rfl := Option.some.inj h
          exact ⟨l, [], by rw [← Std.LawfulEqCmp.eq_of_compare hk], by simp⟩
        · rename_i hk
          obtain ⟨pre, post, rfl, hnot⟩ := ih h
          refine ⟨pre, post ++ [kv], by simp, ?_⟩
          rw [List.map_append, List.mem_append, not_or]
          refine ⟨hnot, fun hmem => hk ?_⟩
          rw [List.mem_singleton.mp hmem]
          exact Std.ReflCmp.compare_self
  · rintro ⟨pre, post, rfl, hnot⟩
    have hsplit : assignAll (∅ : Std.ExtTreeMap κ β) (pre ++ (k, v) :: post) =
        assignAll ((assignAll ∅ pre).insert k v) post := by
      simp [assignAll]
    rw [hsplit, getElem?_assignAll_of_not_mem _ hnot, Std.ExtTreeMap.getElem?_insert_self]

/-- **Assigning entries changes nothing** exactly if all of them are there. -/
theorem assignAll_eq_self_iff {l : List (κ × β)} {m : Std.ExtTreeMap κ β}
    (hdistinct : (l.map Prod.fst).Nodup) : assignAll m l = m ↔ ∀ kv ∈ l, m[kv.1]? = some kv.2 := by
  constructor
  · intro h kv hkv
    rw [← h]
    exact getElem?_assignAll_of_mem m hdistinct hkv
  · intro h
    apply Std.ExtTreeMap.ext_getElem?
    intro k
    by_cases hk : k ∈ l.map Prod.fst
    · obtain ⟨⟨k, v⟩, hkv, rfl⟩ := List.mem_map.mp hk
      rw [getElem?_assignAll_of_mem m hdistinct hkv, h _ hkv]
    · exact getElem?_assignAll_of_not_mem m hk

end Lib
