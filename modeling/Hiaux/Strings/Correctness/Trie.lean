import Hiaux.Lib.Suffix
import Hiaux.Strings.AhoCorasick

/-!
# `Strings.Correctness.Trie` — `addWord` builds the tree of the dictionary's prefixes

`spell p` is the string on the path from the root to the node `p`. The nodes spell exactly the strings of a
set `S`, each once, and edges are where the strings say they are (`Trie`). Adding a word adds its prefixes
to the set and itself to the matches of the node that spells it; nothing else changes. After the whole
dictionary the nodes are the prefixes of its words (`InTree`), and a node's matches are the words equal to
what it spells (`wordTree_spec`).
-/

namespace Hiaux
namespace Strings

open Lib

namespace Heap

/-! ## Reading a changed heap -/

theorem node_modify {h : Heap} {p : Nat} (hp : p < h.length) (f : BorNode → BorNode) (x : Nat) :
    node (h.modify p f) x = if x = p then f (h.node p) else h.node x := by
  unfold node
  by_cases hx : x = p
  · subst hx
    rw [if_pos rfl, List.getElem?_modify_eq, List.getElem?_eq_getElem hp]
    rfl
  · rw [if_neg hx, List.getElem?_modify_ne f h (Ne.symm hx)]

/-- A node that is not yet allocated reads as a new one. -/
theorem node_of_length_le {h : Heap} {x : Nat} (hx : h.length ≤ x) : h.node x = BorNode.new := by
  unfold node
  rw [List.getElem?_eq_none hx]
  rfl

/-- Allocating a node changes no node. -/
theorem node_append_new (h : Heap) (x : Nat) : node (h ++ [BorNode.new]) x = h.node x := by
  by_cases hx : x < h.length
  · unfold node
    rw [List.getElem?_append_left hx]
  · rw [node_of_length_le (Nat.le_of_not_lt hx)]
    unfold node
    rw [List.getElem?_append_right (Nat.le_of_not_lt hx)]
    cases x - h.length with
    | zero => rfl
    | succ k => rfl

theorem lt_of_child {h : Heap} {p q : Nat} {c : UInt8} (hc : h.child p c = some q) : p < h.length := by
  by_contra hp
  rw [child, node_of_length_le (by omega)] at hc
  simp [BorNode.new] at hc

/-- The heap in which `addWord` goes on when `p` has no child for `c`. -/
def grow (h : Heap) (p : Nat) (c : UInt8) : Heap :=
  h.modify p (fun n => { n with children := n.children.insert c h.length }) ++ [BorNode.new]

theorem length_grow (h : Heap) (p : Nat) (c : UInt8) : (h.grow p c).length = h.length + 1 := by
  simp [grow]

theorem node_grow {h : Heap} {p : Nat} (hp : p < h.length) (c : UInt8) (x : Nat) :
    (h.grow p c).node x =
      if x = p then { h.node p with children := (h.node p).children.insert c h.length } else h.node x := by
  unfold grow
  rw [node_append_new, node_modify hp]

theorem matches_grow {h : Heap} {p : Nat} (hp : p < h.length) (c : UInt8) (x : Nat) :
    ((h.grow p c).node x).matches_ = (h.node x).matches_ := by
  rw [node_grow hp]
  split
  · subst x
    rfl
  · rfl

theorem failNode_grow {h : Heap} {p : Nat} (hp : p < h.length) (c : UInt8) (x : Nat) :
    ((h.grow p c).node x).failNode = (h.node x).failNode := by
  rw [node_grow hp]
  split
  · subst x
    rfl
  · rfl

theorem child_grow {h : Heap} {p : Nat} (hp : p < h.length) (c : UInt8) (x : Nat) (d : UInt8) :
    (h.grow p c).child x d = if x = p ∧ d = c then some h.length else h.child x d := by
  unfold child
  rw [node_grow hp]
  by_cases hx : x = p
  · subst hx
    rw [if_pos rfl, Std.ExtTreeMap.getElem?_insert]
    by_cases hd : d = c
    · subst hd
      rw [if_pos Std.ReflCmp.compare_self, if_pos ⟨rfl, rfl⟩]
    · rw [if_neg (fun he => hd (Std.LawfulEqCmp.eq_of_compare he).symm), if_neg (fun he => hd he.2)]
  · rw [if_neg hx, if_neg (fun he => hx he.1)]

/-! ## The tree of a set of strings -/

/-- The nodes spell the strings of `S`, each once; an edge adds its letter to what a node spells. -/
structure Trie (h : Heap) (S : Bytes → Prop) (spell : Nat → Bytes) : Prop where
  root : 0 < h.length
  spell_root : spell 0 = []
  child : ∀ {p q c}, h.child p c = some q → q < h.length ∧ spell q = spell p ++ [c]
  child_lt : ∀ {p q c}, h.child p c = some q → p < q
  parent : ∀ {q}, q < h.length → q ≠ 0 → ∃ p c, h.child p c = some q
  inj : ∀ {p q}, p < h.length → q < h.length → spell p = spell q → p = q
  mem : ∀ {s}, S s ↔ ∃ p < h.length, spell p = s

variable {h : Heap} {S : Bytes → Prop} {spell : Nat → Bytes} {p : Nat} {c : UInt8}

/-- Only the size and the edges of the heap matter. -/
theorem Trie.congr {h' : Heap} (ht : Trie h S spell) (hlen : h'.length = h.length)
    (hchild : ∀ p c, h'.child p c = h.child p c) : Trie h' S spell where
  root := hlen ▸ ht.root
  spell_root := ht.spell_root
  child := by
    intro p q c hc
    rw [hlen]
    exact ht.child (hchild p c ▸ hc)
  child_lt := by
    intro p q c hc
    exact ht.child_lt (hchild p c ▸ hc)
  parent := by
    intro q hq hne
    obtain ⟨p, c, hc⟩ := ht.parent (hlen ▸ hq) hne
    exact ⟨p, c, (hchild p c).trans hc⟩
  inj := by
    intro p q hp hq he
    exact ht.inj (hlen ▸ hp) (hlen ▸ hq) he
  mem := by
    intro s
    rw [hlen]
    exact ht.mem

/-- The set may be given in another form. -/
theorem Trie.of_iff {S' : Bytes → Prop} (ht : Trie h S spell) (hiff : ∀ s, S' s ↔ S s) :
    Trie h S' spell :=
  { ht with mem := (hiff _).trans ht.mem }

/-- The edges are where the strings say they are. -/
theorem Trie.edge (ht : Trie h S spell) {q : Nat} (hp : p < h.length) (hq : q < h.length)
    (he : spell q = spell p ++ [c]) : h.child p c = some q := by
  have hne : q ≠ 0 := by
    rintro rfl
    rw [ht.spell_root] at he
    simp at he
  obtain ⟨p', c', hc⟩ := ht.parent hq hne
  have hs : spell p' ++ [c'] = spell p ++ [c] := (ht.child hc).2.symm.trans he
  obtain ⟨hsp, hcc⟩ := List.append_inj' hs rfl
  have hpp : p' = p := ht.inj (lt_of_child hc) hp hsp
  cases hcc
  rw [← hpp, hc]

/-- A node without a child for a letter: the extended string is not in the set. -/
theorem Trie.not_mem_of_child (ht : Trie h S spell) (hp : p < h.length) (hc : h.child p c = none) :
    ¬ S (spell p ++ [c]) := by
  intro hs
  obtain ⟨q, hq, he⟩ := ht.mem.mp hs
  rw [ht.edge hp hq he] at hc
  exact absurd hc (by simp)

theorem Trie.mem_spell (ht : Trie h S spell) (hp : p < h.length) : S (spell p) := ht.mem.mpr ⟨p, hp, rfl⟩

theorem Trie.spell_ne_nil (ht : Trie h S spell) (hp : p < h.length) (hroot : p ≠ 0) : spell p ≠ [] := by
  intro hnil
  exact hroot (ht.inj hp ht.root (hnil.trans ht.spell_root.symm))

/-- Children are allocated after their parents, so the depth of a node is bounded by its address. -/
theorem Trie.depth_le (ht : Trie h S spell) (hp : p < h.length) : (spell p).length ≤ p := by
  induction p using Nat.strong_induction_on with
  | _ p ih =>
      by_cases hp0 : p = 0
      · rw [hp0, ht.spell_root]
        exact Nat.le_refl _
      · obtain ⟨x, c, hc⟩ := ht.parent hp hp0
        have hlt := ht.child_lt hc
        have hx := ih x hlt (lt_of_child hc)
        rw [(ht.child hc).2, List.length_append, List.length_singleton]
        omega

/-- Adding a child adds one string. -/
theorem Trie.grow (ht : Trie h S spell) (hp : p < h.length) (hc : h.child p c = none) :
    Trie (h.grow p c) (fun s => S s ∨ s = spell p ++ [c])
      (Function.update spell h.length (spell p ++ [c])) := by
  have hold : ∀ {x}, x < h.length → Function.update spell h.length (spell p ++ [c]) x = spell x := by
    intro x hx
    exact Function.update_of_ne (by omega) _ _
  have hnew : Function.update spell h.length (spell p ++ [c]) h.length = spell p ++ [c] :=
    Function.update_self _ _ _
  -- the new string is not spelled yet: otherwise `p` would have the child
  have hfresh : ∀ {x}, x < h.length → spell x ≠ spell p ++ [c] := by
    intro x hx he
    exact ht.not_mem_of_child hp hc (he ▸ ht.mem_spell hx)
  refine ⟨?_, ?_, ?_, ?_, ?_, ?_, ?_⟩
  · rw [length_grow]
    omega
  · rw [hold ht.root, ht.spell_root]
  · intro x q d hx
    rw [length_grow]
    rw [child_grow hp] at hx
    split at hx
    case isTrue he =>
      obtain ⟨rfl, rfl⟩ := he
      cases hx
      rw [hnew, hold hp]
      exact ⟨Nat.lt_succ_self _, rfl⟩
    case isFalse =>
      obtain ⟨hq, hs⟩ := ht.child hx
      rw [hold hq, hold (lt_of_child hx)]
      exact ⟨Nat.lt_succ_of_lt hq, hs⟩
  · intro x q d hx
    rw [child_grow hp] at hx
    split at hx
    case isTrue he =>
      cases hx
      rw [he.1]
      exact hp
    case isFalse => exact ht.child_lt hx
  · intro q hq hne
    rw [length_grow] at hq
    -- the new node hangs on `p`; every other one keeps its parent
    by_cases hqn : q = h.length
    · refine ⟨p, c, ?_⟩
      rw [child_grow hp, if_pos ⟨rfl, rfl⟩, hqn]
    · obtain ⟨x, d, hx⟩ := ht.parent (by omega) hne
      refine ⟨x, d, ?_⟩
      rw [child_grow hp, if_neg, hx]
      rintro ⟨rfl, rfl⟩
      rw [hc] at hx
      exact absurd hx (by simp)
  · intro x y hx hy he
    rw [length_grow] at hx hy
    -- two old nodes, one old and the new one, or the new one twice
    rcases Nat.lt_succ_iff_lt_or_eq.mp hx with hx | rfl <;>
      rcases Nat.lt_succ_iff_lt_or_eq.mp hy with hy | hy
    · rw [hold hx, hold hy] at he
      exact ht.inj hx hy he
    · rw [hold hx, hy, hnew] at he
      exact absurd he (hfresh hx)
    · rw [hold hy, hnew] at he
      exact absurd he.symm (hfresh hy)
    · exact hy.symm
  · intro s
    rw [length_grow]
    constructor
    · rintro (hs | hs)
      · obtain ⟨x, hx, he⟩ := ht.mem.mp hs
        exact ⟨x, Nat.lt_succ_of_lt hx, (hold hx).trans he⟩
      · exact ⟨h.length, Nat.lt_succ_self _, hnew.trans hs.symm⟩
    · rintro ⟨x, hx, he⟩
      rcases Nat.lt_succ_iff_lt_or_eq.mp hx with hx | rfl
      · rw [hold hx] at he
        exact Or.inl (he ▸ ht.mem_spell hx)
      · exact Or.inr (he.symm.trans hnew)

/-! ## Adding a word -/

/-- A tree together with its matches: `M s` is listed at the node that spells `s`. -/
structure Words (h : Heap) (S : Bytes → Prop) (M : Bytes → List Bytes) (spell : Nat → Bytes) : Prop
    extends Trie h S spell where
  matches_eq : ∀ {p}, p < h.length → (h.node p).matches_ = M (spell p)
  outside : ∀ {s}, ¬ S s → M s = []
  root_link : (h.node 0).failNode = some 0

variable {M : Bytes → List Bytes}

theorem Words.grow (hw : Words h S M spell) (hp : p < h.length) (hc : h.child p c = none) :
    Words (h.grow p c) (fun s => S s ∨ s = spell p ++ [c]) M
      (Function.update spell h.length (spell p ++ [c])) := by
  refine ⟨hw.toTrie.grow hp hc, ?_, ?_, ?_⟩
  · intro x hx
    rw [length_grow] at hx
    rw [matches_grow hp]
    rcases Nat.lt_succ_iff_lt_or_eq.mp hx with hx | rfl
    · rw [Function.update_of_ne (by omega), hw.matches_eq hx]
    · rw [Function.update_self, node_of_length_le (Nat.le_refl _),
        hw.outside (hw.toTrie.not_mem_of_child hp hc)]
      rfl
  · intro s hs
    exact hw.outside (fun h => hs (Or.inl h))
  · rw [failNode_grow hp, hw.root_link]

/-- The end of the recursion: the word is recorded at the node reached. -/
theorem Words.push (word : Bytes) (hw : Words h S M spell) (hp : p < h.length) :
    Words (h.addWord p word []) S (fun s => if s = spell p then M s ++ [word] else M s) spell := by
  have hnode : ∀ x, (h.addWord p word []).node x =
      if x = p then { h.node p with matches_ := (h.node p).matches_ ++ [word] } else h.node x :=
    node_modify hp _
  have hlen : (h.addWord p word []).length = h.length := List.length_modify _ h p
  refine ⟨hw.toTrie.congr hlen ?_, ?_, ?_, ?_⟩
  · intro x d
    unfold child
    rw [hnode]
    split
    · subst x
      rfl
    · rfl
  · intro x hx
    rw [hlen] at hx
    rw [hnode]
    -- nodes spell different strings, so the word is listed at one node only
    by_cases hxp : x = p
    · subst hxp
      rw [if_pos rfl, if_pos rfl, hw.matches_eq hx]
    · rw [if_neg hxp, if_neg (fun he => hxp (hw.inj hx hp he)), hw.matches_eq hx]
  · intro s hs
    rw [if_neg, hw.outside hs]
    rintro rfl
    exact hs (hw.toTrie.mem_spell hp)
  · rw [hnode]
    split
    case isTrue he =>
      rw [← he, hw.root_link]
    case isFalse => exact hw.root_link

/-- What a path below `u` adds, split after its first letter. -/
theorem path_cons_iff {u suff s : Bytes} (hu : S u) :
    (S s ∨ ∃ t, t <+: c :: suff ∧ s = u ++ t) ↔
      ((S s ∨ s = u ++ [c]) ∨ ∃ t, t <+: suff ∧ s = (u ++ [c]) ++ t) := by
  constructor
  · rintro (hs | ⟨t, ht, rfl⟩)
    · exact Or.inl (Or.inl hs)
    · rcases List.prefix_cons_iff.mp ht with rfl | ⟨t', rfl, ht'⟩
      · rw [List.append_nil]
        exact Or.inl (Or.inl hu)
      · exact Or.inr ⟨t', ht', by simp⟩
  · rintro ((hs | rfl) | ⟨t, ht, rfl⟩)
    · exact Or.inl hs
    · exact Or.inr ⟨[c], by simp, rfl⟩
    · exact Or.inr ⟨c :: t, by simpa using ht, by simp⟩

/-- **`addWord` adds one path and records the word at its end.** -/
theorem Words.addWord (word suff : Bytes) (hw : Words h S M spell) (hp : p < h.length) :
    ∃ spell', Words (h.addWord p word suff) (fun s => S s ∨ ∃ t, t <+: suff ∧ s = spell p ++ t)
      (fun s => if s = spell p ++ suff then M s ++ [word] else M s) spell' := by
  induction suff generalizing h S spell p with
  | nil =>
      refine ⟨spell, ?_⟩
      have hpush := hw.push word hp
      have hiff : ∀ s, (S s ∨ ∃ t, t <+: [] ∧ s = spell p ++ t) ↔ S s := by
        intro s
        refine ⟨?_, Or.inl⟩
        rintro (hs | ⟨t, ht, rfl⟩)
        · exact hs
        · rw [List.prefix_nil.mp ht, List.append_nil]
          exact hw.toTrie.mem_spell hp
      rw [List.append_nil]
      exact ⟨hpush.toTrie.of_iff hiff, hpush.matches_eq,
        fun hs => hpush.outside (fun h => hs ((hiff _).mpr h)), hpush.root_link⟩
  | cons c suff ih =>
      -- both branches go on at a node that spells one letter more, in a tree that contains it
      have hgo : ∀ {h' spell' q}, Words h' (fun s => S s ∨ s = spell p ++ [c]) M spell' →
          q < h'.length → spell' q = spell p ++ [c] →
          ∃ spell'', Words (h'.addWord q word suff)
            (fun s => S s ∨ ∃ t, t <+: c :: suff ∧ s = spell p ++ t)
            (fun s => if s = spell p ++ c :: suff then M s ++ [word] else M s) spell'' := by
        intro h' spell' q hw' hq hspell
        obtain ⟨spell'', hw''⟩ := ih hw' hq
        rw [hspell, List.append_assoc, List.singleton_append] at hw''
        refine ⟨spell'', hw''.toTrie.of_iff fun s => ?_, hw''.matches_eq, fun hs => ?_, hw''.root_link⟩
        · exact path_cons_iff (hw.toTrie.mem_spell hp)
        · exact hw''.outside (fun h => hs ((path_cons_iff (hw.toTrie.mem_spell hp)).mpr h))
      unfold Heap.addWord
      split
      -- the child is there: its string is in the tree already
      case h_1 q hc =>
        obtain ⟨hq, hspell⟩ := hw.child hc
        have hmem : ∀ s, (S s ∨ s = spell p ++ [c]) ↔ S s := by
          intro s
          refine ⟨?_, Or.inl⟩
          rintro (hs | rfl)
          · exact hs
          · exact hspell ▸ hw.toTrie.mem_spell hq
        refine hgo ⟨hw.toTrie.of_iff hmem, hw.matches_eq, fun hs => ?_, hw.root_link⟩ hq hspell
        exact hw.outside (fun h => hs ((hmem _).mpr h))
      case h_2 hc =>
        apply hgo (hw.grow hp hc)
        · simp [Heap.grow]
        · exact Function.update_self _ _ _

end Heap

/-! ## The whole dictionary -/

/-- The strings the tree of a dictionary spells. -/
def InTree (dict : List Bytes) (s : Bytes) : Prop := s = [] ∨ ∃ w ∈ dict, s <+: w

instance (dict : List Bytes) : DecidablePred (InTree dict) :=
  fun s => inferInstanceAs (Decidable (s = [] ∨ ∃ w ∈ dict, s <+: w))

theorem inTree_prefixClosed (dict : List Bytes) : PrefixClosed (InTree dict) where
  nil := Or.inl rfl
  init := by
    intro s c hs
    rcases hs with hs | ⟨w, hw, hsw⟩
    · exact absurd hs (by simp)
    · exact Or.inr ⟨w, hw, (List.prefix_append s [c]).trans hsw⟩

theorem inTree_of_mem {dict : List Bytes} {w : Bytes} (hw : w ∈ dict) : InTree dict w :=
  Or.inr ⟨w, hw, List.prefix_refl w⟩

theorem wordTree_concat (dict : List Bytes) (w : Bytes) :
    wordTree (dict ++ [w]) = (wordTree dict).addWord 0 w w := by
  unfold wordTree
  rw [List.foldl_append]
  rfl

/-- **The tree before the breadth-first pass**: its nodes are the prefixes of the words, and a node lists
    the words equal to what it spells, once for each time they are in the dictionary. -/
theorem wordTree_spec (dict : List Bytes) :
    ∃ spell, Heap.Words (wordTree dict) (InTree dict) (fun s => dict.filter (· = s)) spell := by
  induction dict using List.reverseRecOn with
  | nil =>
      -- only the root, which has no children
      have hleaf : ∀ {p q c}, (wordTree []).child p c ≠ some q := by
        intro p q c hc
        have hp : p = 0 := Nat.lt_one_iff.mp (Heap.lt_of_child hc)
        subst hp
        simp [Heap.child, Heap.node, wordTree, Heap.setFailNode, BorNode.new] at hc
      refine ⟨fun _ => [], ⟨?_, rfl, ?_, ?_, ?_, ?_, ?_⟩, ?_, fun _ => rfl, rfl⟩
      · exact Nat.zero_lt_one
      · exact fun hc => absurd hc hleaf
      · exact fun hc => absurd hc hleaf
      · intro q hq hne
        exact absurd (Nat.lt_one_iff.mp hq) hne
      · intro p q hp hq _
        exact (Nat.lt_one_iff.mp hp).trans (Nat.lt_one_iff.mp hq).symm
      · intro s
        constructor
        · rintro (rfl | ⟨w, hw, _⟩)
          · exact ⟨0, Nat.zero_lt_one, rfl⟩
          · exact absurd hw List.not_mem_nil
        · rintro ⟨_, _, rfl⟩
          exact Or.inl rfl
      · intro p hp
        have hp0 : p = 0 := Nat.lt_one_iff.mp hp
        subst hp0
        rfl
  | append_singleton dict w ih =>
      obtain ⟨spell, hw⟩ := ih
      obtain ⟨spell', hw'⟩ := hw.addWord w w hw.root
      have hset : ∀ s, InTree (dict ++ [w]) s ↔ InTree dict s ∨ ∃ t, t <+: w ∧ s = spell 0 ++ t := by
        intro s
        rw [hw.spell_root]
        simp only [InTree, List.mem_append, List.mem_singleton, or_and_right, exists_or, exists_eq_left,
          List.nil_append, exists_eq_right', or_assoc]
      have hmatches : ∀ s, (dict ++ [w]).filter (· = s) =
          if s = spell 0 ++ w then dict.filter (· = s) ++ [w] else dict.filter (· = s) := by
        intro s
        rw [hw.spell_root, List.nil_append, List.filter_append]
        by_cases hs : s = w
        · simp [hs]
        · simp [hs, Ne.symm hs]
      refine ⟨spell', ?_⟩
      rw [wordTree_concat]
      refine ⟨hw'.toTrie.of_iff hset, ?_, ?_, hw'.root_link⟩
      · intro p hp
        rw [hw'.matches_eq hp, hmatches]
      · intro s hs
        rw [hmatches]
        exact hw'.outside (fun h => hs ((hset s).mpr h))

end Strings
end Hiaux
