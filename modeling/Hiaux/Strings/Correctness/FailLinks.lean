import Hiaux.Lib.LevelOrder
import Hiaux.Strings.Correctness.Trie

/-!
# `Strings.Correctness.FailLinks` — the breadth-first pass

A node is *linked* when its fail node spells its longest proper suffix in the tree and its matches are all
words that end where it does (`Linked`). The pass links each node from its parent's fail links. Following
them only visits nodes of smaller depth, which the order of the queue has linked before (`Lib.LevelOrder`),
so no `NULL` link is followed and the matches copied from the fail node are already complete.

`build_spec` is the result: the constructor ends, and every node is linked.
-/

namespace Hiaux
namespace Strings

open Lib

namespace Heap

/-! ## What the pass changes -/

/-- Same nodes and edges. -/
structure SameTree (t h : Heap) : Prop where
  length : h.length = t.length
  children : ∀ p, (h.node p).children = (t.node p).children

theorem SameTree.refl (t : Heap) : SameTree t t := ⟨rfl, fun _ => rfl⟩

theorem SameTree.child {t h : Heap} (hs : SameTree t h) (p : Nat) (c : UInt8) :
    h.child p c = t.child p c := by
  unfold Heap.child
  rw [hs.children]

theorem SameTree.childList {t h : Heap} (hs : SameTree t h) (p : Nat) : h.childList p = t.childList p := by
  unfold Heap.childList
  rw [hs.children]

/-- A change of a node that keeps its children. -/
theorem SameTree.modify {t h : Heap} (hs : SameTree t h) {q : Nat} (hq : q < h.length)
    {f : BorNode → BorNode} (hf : ∀ n, (f n).children = n.children) : SameTree t (h.modify q f) where
  length := (List.length_modify f h q).trans hs.length
  children := by
    intro x
    rw [node_modify hq]
    split
    · subst x
      rw [hf, hs.children]
    · exact hs.children x

/-- `setFailNode` and `pushMatches` together. -/
theorem node_link {h : Heap} {q : Nat} (hq : q < h.length) (f : Nat) (ws : List Bytes) (x : Nat) :
    ((h.setFailNode q f).pushMatches q ws).node x =
      if x = q then { h.node q with matches_ := (h.node q).matches_ ++ ws, failNode := some f }
      else h.node x := by
  unfold pushMatches setFailNode
  rw [node_modify (by simpa using hq), node_modify hq, node_modify hq, if_pos rfl]
  split <;> rfl

theorem SameTree.link {t h : Heap} (hs : SameTree t h) {q : Nat} (hq : q < h.length) (f : Nat)
    (ws : List Bytes) : SameTree t ((h.setFailNode q f).pushMatches q ws) := by
  refine (hs.modify hq ?_).modify (by simpa [setFailNode] using hq) ?_ <;> exact fun _ => rfl

/-! ## Linked nodes -/

section

variable (dict : List Bytes) (spell : Nat → Bytes)

/-- The fail node of `p` spells its longest proper suffix, and its matches are complete. -/
def Linked (h : Heap) (p : Nat) : Prop :=
  (∃ f < h.length, (h.node p).failNode = some f ∧ spell f = longestProper (InTree dict) (spell p)) ∧
    (h.node p).matches_ = suffixMatches dict (spell p)

/-- The heap during the pass: the nodes of `done` are linked, the others list their own words only. -/
structure Linking (t : Heap) (done : List Nat) (h : Heap) : Prop where
  same : SameTree t h
  linked : ∀ {p}, p ∈ done → Linked dict spell h p
  fresh : ∀ {p}, p < h.length → p ∉ done → (h.node p).matches_ = dict.filter (· = spell p)

end

variable {dict : List Bytes} {spell : Nat → Bytes} {t h : Heap} {done : List Nat}

/-- Linking a node with complete matches keeps the others linked. -/
theorem Linking.link (hl : Linking dict spell t done h) {q f : Nat} {ws : List Bytes} (hq : q < h.length)
    (hnew : q ∉ done) (hf : f < h.length) (hspell : spell f = longestProper (InTree dict) (spell q))
    (hws : dict.filter (· = spell q) ++ ws = suffixMatches dict (spell q)) :
    Linking dict spell t (q :: done) ((h.setFailNode q f).pushMatches q ws) := by
  have hsame := hl.same.link hq f ws
  have hlen : ((h.setFailNode q f).pushMatches q ws).length = h.length :=
    hsame.length.trans hl.same.length.symm
  refine ⟨hsame, ?_, ?_⟩
  · intro p hp
    unfold Linked
    rw [node_link hq, hlen]
    rcases List.mem_cons.mp hp with rfl | hmem
    · rw [if_pos rfl]
      exact ⟨⟨f, hf, rfl, hspell⟩, by rw [hl.fresh hq hnew, hws]⟩
    · rw [if_neg]
      · exact hl.linked hmem
      · rintro rfl
        exact hnew hmem
  · intro p hp hnp
    rw [hlen] at hp
    rw [node_link hq, if_neg (fun he => hnp (List.mem_cons.mpr (Or.inl he)))]
    exact hl.fresh hp (fun h => hnp (List.mem_cons_of_mem q h))

/-! ## Following fail links -/

/-- **`getFallNode`** finds the node for the longest suffix that can be extended by the letter, if all
    nodes up to the depth of the start are linked. -/
theorem getFallNode_spec (ht : Trie h (InTree dict) spell) {p : Nat} {c : UInt8} (fuel : Nat)
    (hp : p < h.length) (hfuel : (spell p).length < fuel)
    (hlinked : ∀ {x}, x < h.length → (spell x).length ≤ (spell p).length → Linked dict spell h x) :
    ∃ f < h.length, h.getFallNode fuel p c = some f ∧
      spell f = longest (InTree dict) (longestProper (InTree dict) (spell p) ++ [c]) := by
  induction fuel generalizing p with
  | zero => exact absurd hfuel (Nat.not_lt_zero _)
  | succ fuel ih =>
      obtain ⟨⟨f, hf, hlink, hspell⟩, _⟩ := hlinked hp (Nat.le_refl _)
      unfold Heap.getFallNode
      rw [hlink, ← hspell]
      dsimp only
      split
      case h_1 q hc =>
        obtain ⟨hq, hsq⟩ := ht.child hc
        refine ⟨q, hq, rfl, ?_⟩
        rw [← hsq, longest_of_mem (ht.mem_spell hq)]
      case h_2 hc =>
        have hout : ¬ InTree dict (spell f ++ [c]) := ht.not_mem_of_child hf hc
        by_cases hroot : spell p = []
        -- the root is its own fail node
        · have hf0 : spell f = [] := by
            rw [hspell, hroot]
            rfl
          have hpf : p = f := ht.inj hp hf (hroot.trans hf0.symm)
          rw [if_neg (fun hne => hne hpf)]
          refine ⟨p, hp, rfl, ?_⟩
          rw [hf0] at hout
          rw [hroot, hf0]
          exact (longest_singleton_of_not_mem hout).symm
        · have hlt : (spell f).length < (spell p).length := by
            rw [hspell]
            exact longestProper_length_lt hroot
          have hne : p ≠ f := by
            rintro rfl
            exact Nat.lt_irrefl _ hlt
          rw [if_pos hne]
          obtain ⟨g, hg, hget, hsg⟩ := ih hf (by omega) (fun hx hle => hlinked hx (by omega))
          refine ⟨g, hg, hget, ?_⟩
          by_cases hf0 : spell f = []
          · rw [hsg, hf0]
            rfl
          · rw [hsg, longest_append_of_not_mem (inTree_prefixClosed dict) hf0 hout]

/-! ## The children of a node -/

theorem mem_childList {p q : Nat} {c : UInt8} : (c, q) ∈ t.childList p ↔ t.child p c = some q :=
  Std.ExtTreeMap.mem_toList_iff_getElem?_eq_some

/-- Different letters lead to different children. -/
theorem Trie.childList_nodup {S : Bytes → Prop} (ht : Trie t S spell) (p : Nat) :
    ((t.childList p).map Prod.snd).Nodup := by
  rw [List.nodup_iff_pairwise_ne, List.pairwise_map]
  have hkeys : (t.childList p).Pairwise (fun a b => ¬ charCmp a.1 b.1 = .eq) :=
    Std.ExtTreeMap.distinct_keys_toList
  refine hkeys.imp_of_mem ?_
  rintro ⟨c, q⟩ ⟨c', q'⟩ hq hq' hne he
  apply hne
  have hs := (ht.child (mem_childList.mp hq)).2
  have hs' := (ht.child (mem_childList.mp hq')).2
  rw [show q = q' from he, hs'] at hs
  have hcc : [c'] = [c] := List.append_cancel_left hs
  cases hcc
  exact Std.ReflCmp.compare_self

/-- The tree as the breadth-first pass sees it. -/
def Edge (t : Heap) (p q : Nat) : Prop := ∃ c, t.child p c = some q

theorem mem_children {p q : Nat} : q ∈ (t.childList p).map Prod.snd ↔ t.Edge p q := by
  unfold Edge
  simp only [List.mem_map, Prod.exists, mem_childList, exists_eq_right]

theorem Trie.levelTree {S : Bytes → Prop} (ht : Trie t S spell) :
    LevelTree (· < t.length) t.Edge 0 (fun p => (spell p).length) where
  depth_root := by rw [ht.spell_root, List.length_nil]
  depth_edge := by
    rintro p q ⟨c, hc⟩
    rw [(ht.child hc).2, List.length_append, List.length_singleton]
  parent := by
    intro q hq hne
    obtain ⟨p, c, hc⟩ := ht.parent hq hne
    exact ⟨p, lt_of_child hc, c, hc⟩
  parent_unique := by
    rintro p p' q ⟨c, hc⟩ ⟨c', hc'⟩
    have hs : spell p ++ [c] = spell p' ++ [c'] := (ht.child hc).2.symm.trans (ht.child hc').2
    exact ht.inj (lt_of_child hc) (lt_of_child hc') (List.append_inj' hs rfl).1

/-! ## The loops -/

/-- Only which nodes are done matters. -/
theorem Linking.of_mem_iff {done' : List Nat} (hl : Linking dict spell t done h)
    (hiff : ∀ p, p ∈ done' ↔ p ∈ done) : Linking dict spell t done' h where
  same := hl.same
  linked := fun hp => hl.linked ((hiff _).mp hp)
  fresh := fun hp hnp => hl.fresh hp (fun h => hnp ((hiff _).mpr h))

/-- **The inner loop** links the children of a node, if all nodes that are not deeper are linked. -/
theorem linkChildren_spec (ht : Trie t (InTree dict) spell) {cur : Nat} (hcur : cur < t.length)
    (hroot : spell cur ≠ []) (kids : List (UInt8 × Nat)) (hl : Linking dict spell t done h)
    (hdone : ∀ {x}, x < t.length → (spell x).length ≤ (spell cur).length → x ∈ done)
    (hkids : ∀ {c q}, (c, q) ∈ kids → t.child cur c = some q)
    (hnd : (kids.map Prod.snd).Nodup) (hnew : ∀ {q}, q ∈ kids.map Prod.snd → q ∉ done) :
    ∃ h', linkChildren h cur kids = some h' ∧
      Linking dict spell t (done ++ kids.map Prod.snd) h' := by
  induction kids generalizing h done with
  | nil => exact ⟨h, rfl, by simpa using hl⟩
  | cons cq rest ih =>
      obtain ⟨c, q⟩ := cq
      obtain ⟨hqrest, hndrest⟩ := List.nodup_cons.mp hnd
      have hlen := hl.same.length
      have ht' : Trie h (InTree dict) spell := ht.congr hlen hl.same.child
      obtain ⟨hq, hsq⟩ := ht.child (hkids List.mem_cons_self)
      have hlinked : ∀ {x}, x < h.length → (spell x).length ≤ (spell cur).length →
          Linked dict spell h x := fun hx hle => hl.linked (hdone (hlen ▸ hx) hle)
      have hdepth := ht.depth_le hcur
      obtain ⟨f, hf, hget, hsf⟩ := getFallNode_spec ht' (c := c) (h.length + 1) (hlen ▸ hcur)
        (by rw [hlen]; omega) hlinked
      rw [← longestProper_append_singleton (inTree_prefixClosed dict) hroot, ← hsq] at hsf
      -- the fail node is not deeper than `cur`, so its matches are complete
      have hfd : (spell f).length ≤ (spell cur).length := by
        have hlt := longestProper_length_lt (S := InTree dict) (s := spell q) (by rw [hsq]; simp)
        rw [← hsf, hsq, List.length_append, List.length_singleton] at hlt
        omega
      have hmatches : dict.filter (· = spell q) ++ (h.node f).matches_ = suffixMatches dict (spell q) := by
        rw [(hlinked hf hfd).2, hsf]
        exact (suffixMatches_eq (fun w hw => inTree_of_mem hw) (by rw [hsq]; simp)).symm
      have hl' := hl.link (hlen ▸ hq) (hnew List.mem_cons_self) hf hsf hmatches
      obtain ⟨h', hrun, hl''⟩ := ih hl' (fun hx hle => List.mem_cons_of_mem q (hdone hx hle))
        (fun hm => hkids (List.mem_cons_of_mem _ hm)) hndrest (by
          intro x hx hmem
          rcases List.mem_cons.mp hmem with rfl | hmem
          · exact hqrest hx
          · exact hnew (List.mem_cons_of_mem _ hx) hmem)
      refine ⟨h', ?_, hl''.of_mem_iff ?_⟩
      · unfold Heap.linkChildren
        rw [hget]
        exact hrun
      · intro x
        simp only [List.map_cons, List.mem_append, List.mem_cons]
        tauto

/-- Discovered nodes are allocated. -/
theorem Trie.lt_of_discovered {S : Bytes → Prop} (ht : Trie t S spell) {seen queue : List Nat}
    (htr : Traversal t.Edge 0 (fun p => (spell p).length) seen queue) {x : Nat}
    (hx : x ∈ seen ++ queue) : x < t.length := by
  by_cases hx0 : x = 0
  · rw [hx0]
    exact ht.root
  · obtain ⟨p, _, c, hc⟩ := htr.parent hx hx0
    exact (ht.child hc).1

/-- Each node is discovered once, so the rounds of the outer loop are bounded by the number of nodes. -/
theorem Trie.discovered_length_le {S : Bytes → Prop} (ht : Trie t S spell) {seen queue : List Nat}
    (htr : Traversal t.Edge 0 (fun p => (spell p).length) seen queue) :
    (seen ++ queue).length ≤ t.length := by
  have hsub : seen ++ queue ⊆ List.range t.length := by
    intro x hx
    exact List.mem_range.mpr (ht.lt_of_discovered htr hx)
  simpa using (htr.nodup.subperm hsub).length_le

/-- **The outer loop** ends with every node linked. -/
theorem linkLoop_spec (ht : Trie t (InTree dict) spell) (fuel : Nat) {seen queue : List Nat}
    (htr : Traversal t.Edge 0 (fun p => (spell p).length) seen queue)
    (hl : Linking dict spell t (seen ++ queue) h) (hfuel : t.length ≤ fuel + seen.length) :
    ∃ h', linkLoop fuel h queue = some h' ∧ SameTree t h' ∧
      ∀ {p}, p < t.length → Linked dict spell h' p := by
  induction fuel generalizing h seen queue with
  | zero =>
      cases queue with
      | nil =>
          refine ⟨h, rfl, hl.same, fun hp => hl.linked ?_⟩
          exact List.mem_append_left _ (htr.mem_seen ht.levelTree hp)
      | cons cur queue =>
          -- the fuel is the number of nodes, and each round takes another one
          have hle := ht.discovered_length_le htr
          rw [List.length_append, List.length_cons] at hle
          omega
  | succ fuel ih =>
      cases queue with
      | nil =>
          refine ⟨h, rfl, hl.same, fun hp => hl.linked ?_⟩
          exact List.mem_append_left _ (htr.mem_seen ht.levelTree hp)
      | cons cur queue =>
          have hcurseen := htr.front_not_mem
          have hcur : cur < t.length :=
            ht.lt_of_discovered htr (List.mem_append_right _ List.mem_cons_self)
          -- the root was seen before the loop, so the node taken is another one
          have hcur0 : cur ≠ 0 := by
            rintro rfl
            exact hcurseen htr.root_mem
          have hroot := ht.spell_ne_nil hcur hcur0
          obtain ⟨h', hrun, hl'⟩ := linkChildren_spec ht hcur hroot (t.childList cur) hl
            (fun hx hle => htr.mem_of_depth_le ht.levelTree hx hle) mem_childList.mp
            (ht.childList_nodup cur)
            (fun hq => htr.not_mem_of_edge ht.levelTree hcurseen (mem_children.mp hq))
          have htr' := htr.step ht.levelTree mem_children (ht.childList_nodup cur)
          unfold Heap.linkLoop
          rw [hl.same.childList, hrun]
          dsimp only
          rw [hl'.same.childList]
          apply ih htr'
          · simpa using hl'
          · rw [List.length_append, List.length_singleton]
            omega

/-! ## The root and its children -/

theorem pushMatches_nil (h : Heap) (p : Nat) : h.pushMatches p [] = h := by
  unfold pushMatches
  simp only [List.append_nil]
  exact List.modify_id p h

/-- The loop over the root's children. -/
theorem linkRoot_spec (ht : Trie t (InTree dict) spell) {kids : List (UInt8 × Nat)}
    (hl : Linking dict spell t done h) (hkids : ∀ {c q}, (c, q) ∈ kids → t.child 0 c = some q)
    (hnd : (kids.map Prod.snd).Nodup) (hnew : ∀ {q}, q ∈ kids.map Prod.snd → q ∉ done) :
    Linking dict spell t (done ++ kids.map Prod.snd)
      (kids.foldl (fun h cq => h.setFailNode cq.2 0) h) := by
  induction kids generalizing h done with
  | nil => simpa using hl
  | cons cq rest ih =>
      obtain ⟨c, q⟩ := cq
      obtain ⟨hqrest, hndrest⟩ := List.nodup_cons.mp hnd
      have hlen := hl.same.length
      obtain ⟨hq, hsq⟩ := ht.child (hkids List.mem_cons_self)
      rw [ht.spell_root, List.nil_append] at hsq
      have hsf : spell 0 = longestProper (InTree dict) (spell q) := by
        rw [ht.spell_root, hsq]
        rfl
      have hmatches : dict.filter (· = spell q) ++ [] = suffixMatches dict (spell q) := by
        rw [hsq]
        rfl
      -- one letter has no proper suffix but the empty one, which the root spells
      have hl' := hl.link (hlen ▸ hq) (hnew List.mem_cons_self) (hlen ▸ ht.root) hsf hmatches
      rw [pushMatches_nil] at hl'
      refine (ih hl' (fun hm => hkids (List.mem_cons_of_mem _ hm)) hndrest ?_).of_mem_iff ?_
      · intro x hx hmem
        rcases List.mem_cons.mp hmem with rfl | hmem
        · exact hqrest hx
        · exact hnew (List.mem_cons_of_mem _ hx) hmem
      · intro x
        simp only [List.map_cons, List.mem_append, List.mem_cons]
        tauto

end Heap

/-- The root before the pass: it is its own fail node and has no matches. -/
theorem wordTree_linking {dict : List Bytes} (hdict : ∀ w ∈ dict, w ≠ []) {spell : Nat → Bytes}
    (hw : Heap.Words (wordTree dict) (InTree dict) (fun s => dict.filter (· = s)) spell) :
    Heap.Linking dict spell (wordTree dict) [0] (wordTree dict) := by
  refine ⟨Heap.SameTree.refl _, ?_, ?_⟩
  · intro p hp
    cases List.mem_singleton.mp hp
    refine ⟨⟨0, hw.root, hw.root_link, ?_⟩, ?_⟩
    · rw [hw.spell_root]
      rfl
    · rw [hw.matches_eq hw.root, hw.spell_root, suffixMatches, List.filter_eq_nil_iff]
      intro w hmem he
      exact hdict w hmem (of_decide_eq_true he)
  · intro p hp _
    exact hw.matches_eq hp

/-- **The constructor ends, and every node of its tree is linked.** -/
theorem build_spec {dict : List Bytes} (hdict : ∀ w ∈ dict, w ≠ []) :
    ∃ h spell, build dict = some h ∧ Heap.Trie h (InTree dict) spell ∧
      ∀ {p}, p < h.length → Heap.Linked dict spell h p := by
  obtain ⟨spell, hw⟩ := wordTree_spec dict
  have ht := hw.toTrie
  have htr := Traversal.start ht.levelTree Heap.mem_children (ht.childList_nodup 0)
  have hl : Heap.Linking dict spell (wordTree dict)
      ([0] ++ ((wordTree dict).childList 0).map Prod.snd) (rootLinked dict) := by
    refine Heap.linkRoot_spec ht (wordTree_linking hdict hw) Heap.mem_childList.mp
      (ht.childList_nodup 0) ?_
    intro q hq h0
    cases List.mem_singleton.mp h0
    obtain ⟨c, hc⟩ := Heap.mem_children.mp hq
    exact Nat.lt_irrefl _ (ht.child_lt hc)
  have hlen := hl.same.length
  obtain ⟨h, hrun, hsame, hlinked⟩ := Heap.linkLoop_spec ht (rootLinked dict).length htr hl (by omega)
  refine ⟨h, spell, hrun, ht.congr hsame.length hsame.child, ?_⟩
  intro p hp
  exact hlinked (hsame.length ▸ hp)

end Strings
end Hiaux
