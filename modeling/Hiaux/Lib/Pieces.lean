import Hiaux.Lib.Bytes
import Mathlib.Algebra.Order.BigOperators.Group.List

/-!
# `Lib.Pieces` — strings delivered in pieces, and maps that keep the first entry

A reader that reports a string through successive callbacks cuts it into `Pieces`: every piece but the last
holds something. A consumer that looks only at the last piece sees a suffix of the string, one that looks
only at the first a prefix; each sees the whole exactly when nothing was cut off.

`insertAll` fills a map whose entries are not overwritten. When the map's keys are suffixes of given names
and the names are all different, the map can only be right if every key is (`eq_of_insertAll_eq`).
-/

namespace Lib

/-- The pieces of a string, in order. -/
structure Pieces where
  init : List Bytes
  last : Bytes
  init_ne : ∀ p ∈ init, p ≠ []

namespace Pieces

/-- The string that was cut. -/
def whole (p : Pieces) : Bytes := p.init.flatten ++ p.last

/-- All pieces. -/
def list (p : Pieces) : List Bytes := p.init ++ [p.last]

/-- The first piece. -/
def first (p : Pieces) : Bytes := p.init.headD p.last

/-- A string delivered at once. -/
def one (s : Bytes) : Pieces := ⟨[], s, by simp⟩

theorem eq_one_of_init {p : Pieces} (h : p.init = []) : p = one p.whole := by
  obtain ⟨init, last, hne⟩ := p
  cases h
  rfl

theorem flatten_eq_nil {init : List Bytes} (hne : ∀ p ∈ init, p ≠ []) (h : init.flatten = []) :
    init = [] := by
  cases init with
  | nil => rfl
  | cons p ps =>
      have hp : p = [] := List.flatten_eq_nil_iff.mp h p List.mem_cons_self
      exact absurd hp (hne p List.mem_cons_self)

theorem last_suffix (p : Pieces) : p.last <:+ p.whole := List.suffix_append _ _

/-- **The last piece is the string only if it is the only piece.** -/
theorem last_eq_whole {p : Pieces} (h : p.last.length = p.whole.length) : p.init = [] := by
  apply flatten_eq_nil p.init_ne
  rw [whole, List.length_append] at h
  exact List.eq_nil_of_length_eq_zero (by omega)

/-- A string of which the first piece is the whole: at most an empty piece follows. -/
theorem list_of_first_eq_whole {p : Pieces} (h : p.first = p.whole) :
    p.list = [p.whole] ∨ p.list = [p.whole, []] := by
  obtain ⟨init, last, hne⟩ := p
  cases init with
  | nil => exact Or.inl rfl
  | cons q qs =>
      have hrest : qs.flatten ++ last = [] := by
        have hq : q = q ++ (qs.flatten ++ last) := by simpa [first, whole] using h
        exact List.append_cancel_left (hq.symm.trans (List.append_nil q).symm)
      obtain ⟨hqs, hlast⟩ := List.append_eq_nil_iff.mp hrest
      have hnil : qs = [] := flatten_eq_nil (fun p hp => hne p (List.mem_cons_of_mem q hp)) hqs
      subst hnil hlast
      right
      simp [list, whole]

theorem mem_whole_of_mem_list {p : Pieces} {s : Bytes} {b : UInt8} (hs : s ∈ p.list) (hb : b ∈ s) :
    b ∈ p.whole := by
  rcases List.mem_append.mp hs with hs | hs
  · exact List.mem_append_left _ (List.mem_flatten.mpr ⟨s, hs, hb⟩)
  · cases List.mem_singleton.mp hs
    exact List.mem_append_right _ hb

theorem list_eq_first_cons (p : Pieces) : ∃ rest, p.list = p.first :: rest := by
  obtain ⟨init, last, hne⟩ := p
  cases init with
  | nil => exact ⟨[], rfl⟩
  | cons q qs => exact ⟨qs ++ [last], rfl⟩

end Pieces

/-! ## Maps that keep the first entry -/

/-- `std::map::insert` of each entry in turn. -/
def insertAll (m : StrMap) (kvs : List (Bytes × Bytes)) : StrMap :=
  kvs.foldl (fun m kv => m.insertIfNew kv.1 kv.2) m

theorem insertIfNew_of_mem {m : StrMap} {k : Bytes} (v : Bytes) (hk : k ∈ m) : m.insertIfNew k v = m := by
  apply Std.ExtTreeMap.ext_getElem?
  intro a
  rw [Std.ExtTreeMap.getElem?_insertIfNew, if_neg (fun h => h.2 hk)]

theorem mem_insertAll {m : StrMap} {kvs : List (Bytes × Bytes)} {k : Bytes} :
    k ∈ insertAll m kvs ↔ k ∈ m ∨ k ∈ kvs.map Prod.fst := by
  induction kvs generalizing m with
  | nil => simp [insertAll]
  | cons kv kvs ih =>
      have hstep : insertAll m (kv :: kvs) = insertAll (m.insertIfNew kv.1 kv.2) kvs := rfl
      rw [hstep, ih, Std.ExtTreeMap.mem_insertIfNew, Std.LawfulEqCmp.compare_eq_iff_eq, List.map_cons,
        List.mem_cons]
      tauto

/-- With different keys every entry is inserted. -/
theorem getElem?_insertAll {m : StrMap} {kvs : List (Bytes × Bytes)} (hnd : (kvs.map Prod.fst).Nodup)
    (hnew : ∀ k ∈ kvs.map Prod.fst, k ∉ m) {k v : Bytes} (hkv : (k, v) ∈ kvs) :
    (insertAll m kvs)[k]? = some v := by
  -- a key that is there keeps its value: later insertions of it are ignored
  have hkeep : ∀ (kvs : List (Bytes × Bytes)) {m : StrMap}, m[k]? = some v →
      (insertAll m kvs)[k]? = some v := by
    intro kvs
    induction kvs with
    | nil => exact fun h => h
    | cons kv kvs ih =>
        intro m h
        apply ih
        rw [Std.ExtTreeMap.getElem?_insertIfNew, if_neg, h]
        rintro ⟨he, hn⟩
        rw [Std.LawfulEqCmp.eq_of_compare he] at hn
        exact hn (Std.ExtTreeMap.mem_iff_isSome_getElem?.mpr (by rw [h]; rfl))
  induction kvs generalizing m with
  | nil => exact absurd hkv List.not_mem_nil
  | cons kv kvs ih =>
      obtain ⟨hfirst, hrest⟩ := List.nodup_cons.mp hnd
      rcases List.mem_cons.mp hkv with rfl | hkv
      · apply hkeep kvs
        rw [Std.ExtTreeMap.getElem?_insertIfNew, if_pos ⟨Std.ReflCmp.compare_self,
          hnew k List.mem_cons_self⟩]
      · apply ih hrest _ hkv
        intro a ha hmem
        rcases Std.ExtTreeMap.mem_insertIfNew.mp hmem with he | hm
        · exact hfirst (Std.LawfulEqCmp.eq_of_compare he ▸ ha)
        · exact hnew a (List.mem_cons_of_mem _ ha) hm

/-- Suffixes of strings with the same total length are the strings. -/
theorem eq_of_suffixes {α : Type} (key name : α → Bytes) (l : List α)
    (hsuf : ∀ x ∈ l, key x <:+ name x)
    (hlen : (l.map (fun x => (key x).length)).sum = (l.map (fun x => (name x).length)).sum) :
    ∀ x ∈ l, key x = name x := by
  induction l with
  | nil => exact fun x hx => absurd hx List.not_mem_nil
  | cons y l ih =>
      have hy := (hsuf y List.mem_cons_self).length_le
      have hl : (l.map (fun x => (key x).length)).sum ≤ (l.map (fun x => (name x).length)).sum :=
        List.sum_le_sum (fun x hx => (hsuf x (List.mem_cons_of_mem y hx)).length_le)
      simp only [List.map_cons, List.sum_cons] at hlen
      intro x hx
      rcases List.mem_cons.mp hx with rfl | hx
      · exact (hsuf x List.mem_cons_self).eq_of_length (by omega)
      · exact ih (fun x hx => hsuf x (List.mem_cons_of_mem y hx)) (by omega) x hx

/-- **A map under different names is right only if its keys and values are.** The entries of `l` are stored
    under a suffix of their name; if the map is the one stored under the names, no name was cut. -/
theorem eq_of_insertAll_eq {α : Type} (key name val full : α → Bytes) (l : List α)
    (hsuf : ∀ x ∈ l, key x <:+ name x) (hnd : (l.map name).Nodup)
    (h : insertAll ∅ (l.map (fun x => (key x, val x))) = insertAll ∅ (l.map (fun x => (name x, full x)))) :
    ∀ x ∈ l, key x = name x ∧ val x = full x := by
  have hkeys : ∀ k, k ∈ l.map key ↔ k ∈ l.map name := by
    intro k
    have hk := congrArg (k ∈ ·) h
    simpa [mem_insertAll, List.map_map, Function.comp_def] using hk
  -- as many keys as names, and the same ones: so no key was inserted twice
  have hperm : (l.map name).Perm (l.map key) := by
    refine (hnd.subperm (fun k hk => (hkeys k).mpr hk)).perm_of_length_le ?_
    rw [List.length_map, List.length_map]
  -- keys and names have the same total length, so no suffix is a proper one
  have hkey : ∀ x ∈ l, key x = name x := by
    apply eq_of_suffixes key name l hsuf
    have hsum := (hperm.map List.length).sum_eq
    simpa [List.map_map, Function.comp_def] using hsum.symm
  intro x hx
  refine ⟨hkey x hx, ?_⟩
  have hfull : (insertAll ∅ (l.map (fun x => (name x, full x))))[name x]? = some (full x) := by
    apply getElem?_insertAll
    · simpa [List.map_map, Function.comp_def] using hnd
    · simp
    · exact List.mem_map.mpr ⟨x, hx, rfl⟩
  have hval : (insertAll ∅ (l.map (fun x => (key x, val x))))[name x]? = some (val x) := by
    apply getElem?_insertAll
    · simpa [List.map_map, Function.comp_def] using hperm.nodup_iff.mp hnd
    · simp
    · exact List.mem_map.mpr ⟨x, hx, by rw [hkey x hx]⟩
  rw [h, hfull] at hval
  exact (Option.some.inj hval).symm

end Lib
