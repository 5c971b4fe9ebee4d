import Hiaux.Strings.Correctness.FailLinks

/-!
# `Strings.Correctness.LongestSuffixes` — the tree of every dictionary, and its fail links

A node *spells* the letters on the way to it. The strings spelled are the prefixes of the words, and the fail node of
`s` spells the longest proper suffix of `s` among them (`failNode_longest_suffix`).

`build_spec` has this for dictionaries without the empty word, which would be a match at the root. The matches do not
steer the construction: it makes the same tree and the same links when they are left out (`linkLoop_skeleton`), and
without its matches the tree of a dictionary is that of its non-empty words (`skeleton_wordTree`).
-/

namespace Hiaux
namespace Strings

open Lib

namespace Heap

/-! ## Spelling -/

/-- Following the letters of a string from `p`. -/
def follow (h : Heap) (p : Nat) : Bytes → Option Nat
  | [] => some p
  | c :: s => (h.child p c).bind (fun q => h.follow q s)

/-- The letters of `s` lead from the root to `p`. -/
def Spells (h : Heap) (p : Nat) (s : Bytes) : Prop := h.follow 0 s = some p

theorem follow_append (h : Heap) (p : Nat) (s t : Bytes) :
    h.follow p (s ++ t) = (h.follow p s).bind (fun q => h.follow q t) := by
  induction s generalizing p with
  | nil => rfl
  | cons c s ih =>
      rw [List.cons_append, follow, follow, Option.bind_assoc]
      exact Option.bind_congr fun q _ => ih q

variable {h h' : Heap} {S : Bytes → Prop} {spell : Nat → Bytes} {p : Nat} {s : Bytes}

theorem Trie.follow (ht : Trie h S spell) {q : Nat} (hp : p < h.length) (hq : h.follow p s = some q) :
    q < h.length ∧ spell q = spell p ++ s := by
  induction s generalizing p with
  | nil =>
      obtain rfl := Option.some.inj hq
      exact ⟨hp, (List.append_nil _).symm⟩
  | cons c s ih =>
      obtain ⟨r, hr, hq⟩ := Option.bind_eq_some_iff.mp hq
      obtain ⟨hlt, hspell⟩ := ht.child hr
      obtain ⟨hlt', hspell'⟩ := ih hlt hq
      refine ⟨hlt', ?_⟩
      rw [hspell', hspell, List.append_assoc]
      rfl

/-- Every node spells its string. -/
theorem Trie.spells (ht : Trie h S spell) (hp : p < h.length) : h.Spells p (spell p) := by
  induction p using Nat.strong_induction_on with
  | _ p ih =>
      by_cases hp0 : p = 0
      · rw [hp0, ht.spell_root]
        rfl
      · obtain ⟨x, c, hc⟩ := ht.parent hp hp0
        have hx : h.follow 0 (spell x) = some x := ih x (ht.child_lt hc) (lt_of_child hc)
        show h.follow 0 (spell p) = some p
        rw [(ht.child hc).2, follow_append, hx, Option.bind_some, Heap.follow, hc]
        rfl

/-- And it spells nothing else. -/
theorem Trie.spells_iff (ht : Trie h S spell) : h.Spells p s ↔ p < h.length ∧ spell p = s := by
  constructor
  · intro hs
    obtain ⟨hp, hspell⟩ := ht.follow ht.root hs
    rw [ht.spell_root, List.nil_append] at hspell
    exact ⟨hp, hspell⟩
  · rintro ⟨hp, rfl⟩
    exact ht.spells hp

/-! ## The construction without matches -/

/-- The nodes with their children and links only. -/
def skeleton (h : Heap) : Heap := h.map (fun n => { n with matches_ := [] })

theorem length_skeleton (h : Heap) : h.skeleton.length = h.length := List.length_map _

theorem node_skeleton (h : Heap) (p : Nat) : h.skeleton.node p = { h.node p with matches_ := [] } := by
  unfold node skeleton
  rw [List.getElem?_map]
  cases h[p]? <;> rfl

theorem child_skeleton (h : Heap) (p : Nat) (c : UInt8) : h.skeleton.child p c = h.child p c := by
  unfold child
  rw [node_skeleton]

theorem childList_skeleton (h : Heap) (p : Nat) : h.skeleton.childList p = h.childList p := by
  unfold childList
  rw [node_skeleton]

/-- A change that says the same about children and links with and without matches. -/
theorem skeleton_modify (f g : BorNode → BorNode)
    (hfg : ∀ n, { f n with matches_ := [] } = g { n with matches_ := [] }) (h : Heap) (p : Nat) :
    skeleton (h.modify p f) = h.skeleton.modify p g := by
  apply List.ext_getElem?
  intro i
  unfold skeleton
  rw [List.getElem?_map, List.getElem?_modify, List.getElem?_modify, List.getElem?_map]
  cases h[i]? with
  | none => rfl
  | some n =>
      by_cases hi : p = i
      · simp only [hi, if_true, Option.map_some, Option.map_eq_map]
        exact congrArg some (hfg n)
      · simp only [hi, if_false, Option.map_some, Option.map_eq_map]

theorem skeleton_setFailNode (h : Heap) (p f : Nat) : skeleton (h.setFailNode p f) = h.skeleton.setFailNode p f :=
  skeleton_modify _ _ (fun _ => rfl) h p

theorem skeleton_modify_matches (f : List Bytes → List Bytes) (h : Heap) (p : Nat) :
    skeleton (h.modify p (fun n => { n with matches_ := f n.matches_ })) = h.skeleton :=
  (skeleton_modify (fun n => { n with matches_ := f n.matches_ }) id (fun _ => rfl) h p).trans (List.modify_id p _)

theorem skeleton_pushMatches (h : Heap) (p : Nat) (ws : List Bytes) : skeleton (h.pushMatches p ws) = h.skeleton :=
  skeleton_modify_matches (· ++ ws) h p

theorem skeleton_grow (h : Heap) (p : Nat) (c : UInt8) : skeleton (h.grow p c) = h.skeleton.grow p c := by
  have hmodify := skeleton_modify (fun n => { n with children := n.children.insert c h.length })
    (fun n => { n with children := n.children.insert c h.length }) (fun _ => rfl) h p
  unfold grow
  rw [length_skeleton, ← hmodify]
  exact List.map_append

theorem getFallNode_skeleton (h : Heap) (fuel p : Nat) (c : UInt8) :
    h.skeleton.getFallNode fuel p c = h.getFallNode fuel p c := by
  induction fuel generalizing p with
  | zero => rfl
  | succ fuel ih =>
      unfold getFallNode
      simp only [node_skeleton, child_skeleton, ih]

theorem linkChildren_skeleton (h : Heap) (cur : Nat) (kids : List (UInt8 × Nat)) :
    linkChildren h.skeleton cur kids = (linkChildren h cur kids).map skeleton := by
  induction kids generalizing h with
  | nil => rfl
  | cons cq rest ih =>
      obtain ⟨c, q⟩ := cq
      unfold linkChildren
      rw [length_skeleton, getFallNode_skeleton]
      cases h.getFallNode (h.length + 1) cur c with
      | none => rfl
      | some f =>
          dsimp only
          rw [node_skeleton, pushMatches_nil, ← skeleton_setFailNode, ← ih, skeleton_pushMatches]

/-- **The breadth-first pass does not look at the matches.** -/
theorem linkLoop_skeleton (fuel : Nat) (h : Heap) (queue : List Nat) :
    linkLoop fuel h.skeleton queue = (linkLoop fuel h queue).map skeleton := by
  induction fuel generalizing h queue with
  | zero => cases queue <;> rfl
  | succ fuel ih =>
      cases queue with
      | nil => rfl
      | cons cur queue =>
          unfold linkLoop
          rw [childList_skeleton, linkChildren_skeleton]
          cases linkChildren h cur (h.childList cur) with
          | none => rfl
          | some h' =>
              dsimp only [Option.map_some]
              rw [childList_skeleton, ih]

/-- **`addWord` does not look at the matches.** -/
theorem skeleton_addWord (word suff : Bytes) (he : h.skeleton = h'.skeleton) (p : Nat) :
    skeleton (h.addWord p word suff) = skeleton (h'.addWord p word suff) := by
  induction suff generalizing h h' p with
  | nil =>
      have hpush : ∀ h : Heap, skeleton (h.addWord p word []) = h.skeleton :=
        fun h => skeleton_modify_matches (· ++ [word]) h p
      rw [hpush, hpush, he]
  | cons c suff ih =>
      have hchild : h.child p c = h'.child p c := by
        rw [← child_skeleton h, he, child_skeleton]
      have hlen : h.length = h'.length := by
        rw [← length_skeleton h, he, length_skeleton]
      unfold addWord
      rw [hchild]
      cases h'.child p c with
      | some q => exact ih he q
      | none =>
          show skeleton ((h.grow p c).addWord h.length word suff) =
            skeleton ((h'.grow p c).addWord h'.length word suff)
          rw [hlen]
          apply ih
          rw [skeleton_grow, skeleton_grow, he]

end Heap

/-! ## Every dictionary -/

variable {dict : List Bytes}

theorem inTree_filter {s : Bytes} : InTree (dict.filter (· ≠ [])) s ↔ InTree dict s := by
  constructor
  · rintro (rfl | ⟨w, hw, hsw⟩)
    · exact Or.inl rfl
    · exact Or.inr ⟨w, List.mem_of_mem_filter hw, hsw⟩
  · rintro (rfl | ⟨w, hw, hsw⟩)
    · exact Or.inl rfl
    · by_cases hempty : w = []
      · rw [hempty] at hsw
        exact Or.inl (List.prefix_nil.mp hsw)
      · exact Or.inr ⟨w, List.mem_filter.mpr ⟨hw, decide_eq_true hempty⟩, hsw⟩

/-- The empty word adds a match to the root and nothing else. -/
theorem skeleton_wordTree (dict : List Bytes) :
    (wordTree dict).skeleton = (wordTree (dict.filter (· ≠ []))).skeleton := by
  induction dict using List.reverseRecOn with
  | nil => rfl
  | append_singleton dict w ih =>
      rw [wordTree_concat, List.filter_append]
      by_cases hempty : w = []
      · rw [hempty, List.filter_cons_of_neg (by simp), List.filter_nil, List.append_nil, ← ih]
        exact Heap.skeleton_modify_matches (· ++ [[]]) (wordTree dict) 0
      · rw [List.filter_cons_of_pos (by simpa using hempty), List.filter_nil, wordTree_concat]
        exact Heap.skeleton_addWord w w ih 0

/-- **The constructor without matches**, for any dictionary and for its non-empty words. -/
theorem build_skeleton (dict : List Bytes) :
    (build dict).map Heap.skeleton = (build (dict.filter (· ≠ []))).map Heap.skeleton := by
  have hkids : (wordTree dict).childList 0 = (wordTree (dict.filter (· ≠ []))).childList 0 := by
    rw [← Heap.childList_skeleton, skeleton_wordTree, Heap.childList_skeleton]
  have hfold : ∀ (kids : List (UInt8 × Nat)) (h : Heap),
      (kids.foldl (fun h cq => h.setFailNode cq.2 0) h).skeleton =
        kids.foldl (fun h cq => h.setFailNode cq.2 0) h.skeleton := by
    intro kids
    induction kids with
    | nil => exact fun _ => rfl
    | cons cq kids ih =>
        intro h
        rw [List.foldl_cons, List.foldl_cons, ih, Heap.skeleton_setFailNode]
  have hroot : (rootLinked dict).skeleton = (rootLinked (dict.filter (· ≠ []))).skeleton := by
    unfold rootLinked
    rw [hfold, hfold, hkids, skeleton_wordTree]
  unfold build
  rw [← Heap.linkLoop_skeleton, ← Heap.linkLoop_skeleton, hroot, hkids, ← Heap.length_skeleton (rootLinked dict),
    hroot, Heap.length_skeleton]

/-- The constructor ends for every dictionary, and the fail node of every node spells its longest proper suffix. -/
theorem build_links (dict : List Bytes) :
    ∃ h spell, build dict = some h ∧ Heap.Trie h (InTree dict) spell ∧
      ∀ {p}, p < h.length → ∃ f < h.length, (h.node p).failNode = some f ∧
        spell f = longestProper (InTree dict) (spell p) := by
  have hwords : ∀ w ∈ dict.filter (· ≠ []), w ≠ [] := by
    intro w hw
    exact of_decide_eq_true (List.mem_filter.mp hw).2
  obtain ⟨h', spell, hbuild', ht', hlinked⟩ := build_spec hwords
  have hbuild := build_skeleton dict
  rw [hbuild'] at hbuild
  obtain ⟨h, hh, hskeleton⟩ := Option.map_eq_some_iff.mp hbuild
  have hlen : h.length = h'.length := by
    rw [← Heap.length_skeleton h, hskeleton, Heap.length_skeleton]
  have hchild : ∀ p c, h.child p c = h'.child p c := by
    intro p c
    rw [← Heap.child_skeleton h, hskeleton, Heap.child_skeleton]
  have hfail : ∀ p, (h.node p).failNode = (h'.node p).failNode := by
    intro p
    have hnode := congrArg (fun h : Heap => (h.node p).failNode) hskeleton
    simpa only [Heap.node_skeleton] using hnode
  refine ⟨h, spell, hh, (ht'.congr hlen hchild).of_iff fun s => inTree_filter.symm, ?_⟩
  intro p hp
  obtain ⟨⟨f, hf, hlink, hspell⟩, -⟩ := hlinked (hlen ▸ hp)
  refine ⟨f, hlen ▸ hf, (hfail p).trans hlink, ?_⟩
  rw [hspell]
  exact longest_congr (fun _ => inTree_filter) _

/-- `s` begins a word of the dictionary. -/
def IsPrefix (dict : List Bytes) (s : Bytes) : Prop := ∃ w ∈ dict, s <+: w

/-- The nodes are the prefixes of the words: each is spelled by one node, and each node spells one string, which is a
    prefix of a word. Where there are no words, the root is there without one. -/
structure OneNodePerPrefix (h : Heap) (dict : List Bytes) : Prop where
  node : ∀ s, IsPrefix dict s → ∃! p, h.Spells p s
  string : ∀ p < h.length, ∃! s, h.Spells p s
  isPrefix : ∀ {p s}, h.Spells p s → p ≠ 0 → IsPrefix dict s

/-- `t` is the longest proper suffix of `s` that begins a word. -/
structure LongestProperSuffix (dict : List Bytes) (s t : Bytes) : Prop where
  suffix : t <:+ s
  proper : t ≠ s
  isPrefix : IsPrefix dict t
  longest : ∀ u, u <:+ s → u ≠ s → IsPrefix dict u → u.length ≤ t.length

theorem IsPrefix.inTree {s : Bytes} (h : IsPrefix dict s) : InTree dict s := Or.inr h

theorem IsPrefix.nil {s : Bytes} (h : IsPrefix dict s) : IsPrefix dict [] := by
  obtain ⟨w, hw, -⟩ := h
  exact ⟨w, hw, List.nil_prefix⟩

theorem oneNodePerPrefix {h : Heap} {spell : Nat → Bytes} (ht : Heap.Trie h (InTree dict) spell) :
    OneNodePerPrefix h dict := by
  refine ⟨?_, ?_, ?_⟩
  · intro s hs
    obtain ⟨p, hp, hspell⟩ := ht.mem.mp hs.inTree
    refine ⟨p, ht.spells_iff.mpr ⟨hp, hspell⟩, ?_⟩
    intro q hq
    obtain ⟨hq, hspell'⟩ := ht.spells_iff.mp hq
    exact ht.inj hq hp (hspell'.trans hspell.symm)
  · intro p hp
    refine ⟨spell p, ht.spells hp, ?_⟩
    intro s hs
    exact (ht.spells_iff.mp hs).2.symm
  · intro p s hs hroot
    obtain ⟨hp, rfl⟩ := ht.spells_iff.mp hs
    rcases ht.mem_spell hp with hnil | hprefix
    · exact absurd hnil (ht.spell_ne_nil hp hroot)
    · exact hprefix

/-- `longestProper` is what its name says. -/
theorem longestProperSuffix {s : Bytes} (hs : IsPrefix dict s) (hne : s ≠ []) :
    LongestProperSuffix dict s (longestProper (InTree dict) s) := by
  refine ⟨(longest_suffix _).trans (List.tail_suffix s), ?_, ?_, ?_⟩
  · intro he
    have hlt := longestProper_length_lt (S := InTree dict) hne
    rw [he] at hlt
    exact Nat.lt_irrefl _ hlt
  · rcases longest_mem (S := InTree dict) (Or.inl rfl) s.tail with hnil | hprefix
    · rw [longestProper, hnil]
      exact hs.nil
    · exact hprefix
  · intro u hsuffix hproper hu
    -- a proper suffix is a suffix of the tail
    obtain ⟨a, t, rfl⟩ := List.exists_cons_of_ne_nil hne
    exact length_le_longest hu.inTree ((List.suffix_cons_iff.mp hsuffix).resolve_left hproper)

/-- **Fail links point to longest proper suffixes**, for every dictionary. That the constructor has a result says that
    each call of `getFallNode` ends and follows no link that is not set. -/
theorem failNode_longest_suffix (dict : List Bytes) :
    ∃ h, build dict = some h ∧ OneNodePerPrefix h dict ∧
      ∀ p s, p ≠ 0 → h.Spells p s →
        ∃ f t, (h.node p).failNode = some f ∧ h.Spells f t ∧ LongestProperSuffix dict s t := by
  obtain ⟨h, spell, hbuild, ht, hlinks⟩ := build_links dict
  have hnodes := oneNodePerPrefix ht
  refine ⟨h, hbuild, hnodes, ?_⟩
  intro p s hroot hs
  have hprefix := hnodes.isPrefix hs hroot
  obtain ⟨hp, rfl⟩ := ht.spells_iff.mp hs
  obtain ⟨f, hf, hlink, hspell⟩ := hlinks hp
  refine ⟨f, spell f, hlink, ht.spells hf, ?_⟩
  rw [hspell]
  exact longestProperSuffix hprefix (ht.spell_ne_nil hp hroot)

end Strings
end Hiaux
