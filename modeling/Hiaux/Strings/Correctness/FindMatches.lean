import Hiaux.Lib.Occurrences
import Hiaux.Strings.Correctness.FailLinks

/-!
# `Strings.Correctness.FindMatches` — the scan finds exactly the occurrences

Before a letter is read, the current node spells a suffix of the text that is as good as the whole of it:
extended by the letter, both have the same longest suffix in the tree (`Ready`). A round that follows a
fail link keeps this for the letter at hand and reads nothing; a round that reads the letter re-establishes
it for the next one. The depth of the node plus twice the letters left decreases in every round.
-/

namespace Hiaux
namespace Strings

open Lib

namespace Heap

variable {h : Heap} {dict : List Bytes} {spell : Nat → Bytes} {text : Bytes} {cur i : Nat}

/-- The node `cur` stands for the first `i` letters of the text, as far as the next letter is concerned. -/
def Ready (dict : List Bytes) (spell : Nat → Bytes) (text : Bytes) (cur i : Nat) : Prop :=
  ∀ c, text[i]? = some c →
    longest (InTree dict) (text.take i ++ [c]) = longest (InTree dict) (spell cur ++ [c])

/-- A node that spells the longest suffix of the text read is ready for any letter. -/
theorem ready_of_spell (hs : spell cur = longest (InTree dict) (text.take i)) :
    Ready dict spell text cur i := by
  intro c _
  rw [longest_append_singleton (inTree_prefixClosed dict), hs]

theorem take_succ_of_getElem? {c : UInt8} (hc : text[i]? = some c) :
    text.take (i + 1) = text.take i ++ [c] := by
  rw [List.take_add_one, hc]
  rfl

/-- The words that end with a letter are those of the longest suffix in the tree. -/
theorem endingsAt_of_longest {s : Bytes} (hs : longest (InTree dict) (text.take i) = s) :
    endingsAt dict text i = (suffixMatches dict s).map (fun w => (w, i - w.length)) := by
  unfold endingsAt
  rw [← hs, suffixMatches_longest (fun w hw => inTree_of_mem hw)]

/-- **The scan**: from a ready node it ends, and appends the words that end at each of the letters left. -/
theorem findLoop_spec (ht : Trie h (InTree dict) spell)
    (hlinked : ∀ {p}, p < h.length → Linked dict spell h p) (fuel : Nat) (acc : List (Bytes × Nat))
    (hcur : cur < h.length) (hready : Ready dict spell text cur i)
    (hfuel : (spell cur).length + 2 * (text.length - i) ≤ fuel) :
    findLoop h text fuel cur i acc =
      some (acc ++ (List.range' i (text.length - i)).flatMap (fun k => endingsAt dict text (k + 1))) := by
  induction fuel generalizing cur i acc with
  | zero =>
      have hend : text.length - i = 0 := by omega
      unfold findLoop
      rw [if_neg (by omega), hend]
      simp
  | succ fuel ih =>
      unfold findLoop
      split
      case h_1 hc =>
        have hend : text.length - i = 0 := by
          have hle := List.getElem?_eq_none_iff.mp hc
          omega
        rw [hend]
        simp
      case h_2 c hc =>
        have hi : i < text.length := (List.getElem?_eq_some_iff.mp hc).1
        have hrange : List.range' i (text.length - i) =
            i :: List.range' (i + 1) (text.length - (i + 1)) := by
          rw [← List.range'_succ]
          congr 1
          omega
        have htake := take_succ_of_getElem? hc
        split
        case h_1 q hq =>
          -- the letter is read: the child spells the longest suffix
          obtain ⟨hqlen, hspell⟩ := ht.child hq
          have hlong : longest (InTree dict) (text.take (i + 1)) = spell q := by
            rw [htake, hready c hc, ← hspell, longest_of_mem (ht.mem_spell hqlen)]
          rw [ih _ hqlen (ready_of_spell hlong.symm)
            (by rw [hspell, List.length_append, List.length_singleton]; omega),
            (hlinked hqlen).2, ← endingsAt_of_longest hlong, hrange, List.flatMap_cons, List.append_assoc]
        case h_2 hq =>
          obtain ⟨⟨f, hf, hlink, hsf⟩, _⟩ := hlinked hcur
          have hout := ht.not_mem_of_child hcur hq
          rw [hlink]
          dsimp only
          by_cases hroot : spell cur = []
          -- at the root the letter is given up: no word contains it here
          · have hf0 : spell f = [] := by
              rw [hsf, hroot]
              rfl
            have hcf : cur = f := ht.inj hcur hf (hroot.trans hf0.symm)
            have hlong : longest (InTree dict) (text.take (i + 1)) = [] := by
              rw [hroot] at hout
              rw [htake, hready c hc, hroot]
              exact longest_singleton_of_not_mem hout
            have hnone : endingsAt dict text (i + 1) = [] := by
              rw [endingsAt_of_longest hlong]
              rfl
            rw [if_pos hcf, ih acc hf (ready_of_spell (hf0.trans hlong.symm)) (by rw [hf0]; simp; omega),
              hrange, List.flatMap_cons, hnone, List.nil_append]
          · have hlt : (spell f).length < (spell cur).length := by
              rw [hsf]
              exact longestProper_length_lt hroot
            have hne : cur ≠ f := by
              rintro rfl
              exact Nat.lt_irrefl _ hlt
            have hready' : Ready dict spell text f i := by
              intro d hd
              cases hc.symm.trans hd
              rw [hready c hc, longest_append_of_not_mem (inTree_prefixClosed dict) hroot hout, hsf]
            rw [if_neg hne]
            exact ih acc hf hready' (by omega)

end Heap

/-- **`findMatches` finds exactly the occurrences.** For a dictionary of non-empty words the constructor
    ends, and on every text `findMatches` ends and appends one entry for each word of the dictionary and
    each position at which it occurs, and nothing else; the entries come in the order of their ends, and at
    the same end longer words come first. -/
theorem findMatches_occurrences (dict : List Bytes) (hdict : ∀ w ∈ dict, w ≠ []) (text : Bytes)
    (acc : List (Bytes × Nat)) :
    ∃ h res, build dict = some h ∧ findMatches h text acc = some (acc ++ res) ∧
      res.Perm (occurrences dict text) ∧
      res.Pairwise (fun a b => a.1.length + a.2 ≤ b.1.length + b.2 ∧
        (a.1.length + a.2 = b.1.length + b.2 → b.1.length ≤ a.1.length)) := by
  obtain ⟨h, spell, hbuild, ht, hlinked⟩ := build_spec hdict
  refine ⟨h, endings dict text, hbuild, ?_, endings_perm hdict text, endings_pairwise dict text⟩
  have hstart : Heap.Ready dict spell text 0 0 := Heap.ready_of_spell ht.spell_root
  unfold findMatches
  rw [Heap.findLoop_spec ht hlinked _ acc ht.root hstart (by rw [ht.spell_root]; simp), endings,
    List.range_eq_range', Nat.sub_zero]

/-- Words that overlap, are suffixes of each other or repeated. -/
theorem findMatches_occurrences_ushers :
    (∀ w ∈ [ascii "he", ascii "she", ascii "hers", ascii "he"], w ≠ []) ∧
    ∃ h res, build [ascii "he", ascii "she", ascii "hers", ascii "he"] = some h ∧
      findMatches h (ascii "ushers") [] = some ([] ++ res) ∧
      res.Perm (occurrences [ascii "he", ascii "she", ascii "hers", ascii "he"] (ascii "ushers")) ∧
      res.Pairwise (fun a b => a.1.length + a.2 ≤ b.1.length + b.2 ∧
        (a.1.length + a.2 = b.1.length + b.2 → b.1.length ≤ a.1.length)) :=
  ⟨by decide, findMatches_occurrences _ (by decide) (ascii "ushers") []⟩

end Strings
end Hiaux
