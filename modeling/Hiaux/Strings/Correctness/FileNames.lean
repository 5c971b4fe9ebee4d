import Hiaux.Strings.Names

/-!
# `Strings.Correctness.FileNames` — what `changeFilenameExt` keeps

The extension of a path begins at a dot of its last component. `removeFilenameExt` does not take a dot before the
last slash for one, `changeFilenameExt` does, and cuts off the last component with the rest of the directory.
-/

namespace Hiaux
namespace Strings

open Lib

variable {s ext p r : Bytes}

/-- What stands of a path up to its last slash, which is part of it. -/
def directory (s : Bytes) : Bytes :=
  match findLast 47 s with
  | none => []
  | some slashPos => s.take (slashPos + 1)

/-- The last dot of a path, if there is one, stands behind its last slash. -/
def DotInLastComponent (s : Bytes) : Prop :=
  ∀ dotPos slashPos, findLast 46 s = some dotPos → findLast 47 s = some slashPos → slashPos < dotPos

/-- The extension of a path is changed in its last component only. -/
structure ChangesExtension (s ext changed : Bytes) : Prop where
  directory_kept : directory s <+: changed
  ends : 46 :: ext <:+ changed
  same_without : removeFilenameExt changed = removeFilenameExt s

/-! ## Where the last dot and the last slash are -/

theorem directory_begins (s : Bytes) : directory s <+: s := by
  unfold directory
  split
  · exact List.nil_prefix
  · exact List.take_prefix _ _

theorem directory_append (h : 47 ∉ r) (p : Bytes) : directory (p ++ r) = directory p := by
  unfold directory
  rw [findLast_append_of_not_mem h]
  split
  · rfl
  · rename_i n hn
    exact List.take_append_of_le_length (findLast_lt_length hn)

theorem directory_append_slash (h : 47 ∉ r) (p : Bytes) : directory (p ++ 47 :: r) = p ++ [47] := by
  have hassoc : p ++ 47 :: r = p ++ [47] ++ r := by simp
  have hlen : p.length + 1 = (p ++ [47]).length := by simp
  unfold directory
  rw [findLast_append_cons h]
  dsimp only
  rw [hassoc, hlen]
  exact List.take_left

/-- A dot in the last component is where the extension begins. -/
theorem removeFilenameExt_dot (hdot : 46 ∉ r) (hslash : 47 ∉ r) (p : Bytes) :
    removeFilenameExt (p ++ 46 :: r) = p := by
  have hcut : substr (p ++ 46 :: r) 0 p.length = p := List.take_left
  have hnot : 47 ∉ 46 :: r := by simp [hslash]
  unfold removeFilenameExt
  rw [findLast_append_cons hdot, findLast_append_of_not_mem hnot]
  dsimp only
  rw [hcut]
  split
  · rename_i n hn
    exact if_neg (Nat.not_lt.mpr (findLast_lt_length hn).le)
  · rfl

theorem changeFilenameExt_dot (hdot : 46 ∉ r) (p ext : Bytes) :
    changeFilenameExt (p ++ 46 :: r) ext = p ++ 46 :: ext := by
  have hcut : substr (p ++ 46 :: r) 0 p.length = p := List.take_left
  unfold changeFilenameExt
  rw [findLast_append_cons hdot]
  dsimp only
  rw [hcut]

theorem dotInLastComponent_append_iff (hdot : 46 ∉ r) (p : Bytes) :
    DotInLastComponent (p ++ 46 :: r) ↔ 47 ∉ r := by
  unfold DotInLastComponent
  rw [findLast_append_cons hdot]
  constructor
  · intro h hslash
    obtain ⟨n, hn⟩ := Option.ne_none_iff_exists'.mp (mt findLast_eq_none_iff.mp (not_not_intro hslash))
    have hfind : findLast 47 (p ++ 46 :: r) = some (p.length + (n + 1)) := by
      rw [findLast_append, findLast, hn]
    exact absurd (h _ _ rfl hfind) (by omega)
  · rintro hslash dotPos slashPos hd hs
    obtain rfl := Option.some.inj hd
    rw [findLast_append_of_not_mem (by simp [hslash])] at hs
    exact findLast_lt_length hs

/-! ## Changing the extension -/

theorem changesExtension_of_no_dot (hs : 46 ∉ s) (hdot : 46 ∉ ext) (hslash : 47 ∉ ext) :
    ChangesExtension s ext (changeFilenameExt s ext) := by
  have hnone := findLast_eq_none_iff.mpr hs
  have hchange : changeFilenameExt s ext = s ++ 46 :: ext := by
    rw [changeFilenameExt, hnone]
  have hkeep : removeFilenameExt s = s := by
    rw [removeFilenameExt, hnone]
  rw [hchange]
  refine ⟨(directory_begins s).trans (List.prefix_append s _), List.suffix_append s _, ?_⟩
  rw [removeFilenameExt_dot hdot hslash, hkeep]

/-- **With a dot**, the extension is changed if no slash stands behind it. -/
theorem changesExtension_dot_iff (hr : 46 ∉ r) (hdot : 46 ∉ ext) (hslash : 47 ∉ ext) (p : Bytes) :
    ChangesExtension (p ++ 46 :: r) ext (changeFilenameExt (p ++ 46 :: r) ext) ↔ 47 ∉ r := by
  rw [changeFilenameExt_dot hr]
  constructor
  · rintro ⟨hkeep, -, -⟩ hmem
    obtain ⟨n, hn⟩ := Option.ne_none_iff_exists'.mp (mt findLast_eq_none_iff.mp (not_not_intro hmem))
    obtain ⟨q, t, rfl, ht, -⟩ := exists_of_findLast hn
    -- the last slash would have to stand in the new extension
    have hassoc : p ++ 46 :: (q ++ 47 :: t) = p ++ 46 :: q ++ 47 :: t := by simp
    rw [hassoc, directory_append_slash ht, List.append_assoc, List.cons_append,
      List.prefix_append_right_inj, List.cons_prefix_cons] at hkeep
    exact hslash (hkeep.2.subset (by simp))
  · intro hmem
    refine ⟨?_, List.suffix_append p _, ?_⟩
    · rw [directory_append (by simp [hmem])]
      exact (directory_begins p).trans (List.prefix_append p _)
    · rw [removeFilenameExt_dot hdot hslash, removeFilenameExt_dot hr hmem]

/-- **When changing the extension touches the last component only**: if the last dot stands in it, or there is no
    dot. -/
theorem changeFilenameExt_iff (hdot : 46 ∉ ext) (hslash : 47 ∉ ext) (s : Bytes) :
    ChangesExtension s ext (changeFilenameExt s ext) ↔ DotInLastComponent s := by
  cases hfind : findLast 46 s with
  | none =>
      refine iff_of_true (changesExtension_of_no_dot (findLast_eq_none_iff.mp hfind) hdot hslash) ?_
      intro dotPos slashPos hd _
      exact absurd (hfind.symm.trans hd) (by simp)
  | some n =>
      obtain ⟨p, r, rfl, hr, -⟩ := exists_of_findLast hfind
      rw [changesExtension_dot_iff hr hdot hslash, dotInLastComponent_append_iff hr]

/-- `txt` instead of `tar.gz`'s last part, below a directory without a dot. -/
theorem changeFilenameExt_iff_archive :
    ChangesExtension (ascii "dir/a.tar.gz") (ascii "txt") (changeFilenameExt (ascii "dir/a.tar.gz") (ascii "txt")) :=
  (changeFilenameExt_iff (by decide +kernel) (by decide +kernel) (ascii "dir/a.tar.gz")).mpr (by
    intro dotPos slashPos hd hs
    have hdot : findLast 46 (ascii "dir/a.tar.gz") = some 9 := by decide +kernel
    have hslash : findLast 47 (ascii "dir/a.tar.gz") = some 3 := by decide +kernel
    obtain rfl := Option.some.inj (hdot.symm.trans hd)
    obtain rfl := Option.some.inj (hslash.symm.trans hs)
    decide)

/-- **A dotted directory**: the extension of `conf.d/hosts` goes behind the dot of `conf.d`. -/
theorem changeFilenameExt_dotted_directory :
    changeFilenameExt (ascii "conf.d/hosts") (ascii "txt") = ascii "conf.txt" ∧
      ¬ ChangesExtension (ascii "conf.d/hosts") (ascii "txt")
        (changeFilenameExt (ascii "conf.d/hosts") (ascii "txt")) := by
  refine ⟨by decide +kernel, fun h => ?_⟩
  have hkeep : ¬ directory (ascii "conf.d/hosts") <+:
      changeFilenameExt (ascii "conf.d/hosts") (ascii "txt") := by decide +kernel
  exact hkeep h.directory_kept

end Strings
end Hiaux
