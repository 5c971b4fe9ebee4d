import Hiaux.Lib.Bytes

/-!
# `Strings.AhoCorasick` — the Aho-Corasick dictionary matcher

Nodes live in a heap and refer to each other by address, as the `BorNode*` of the source do: a new node is
allocated at the end of the heap, and address `0` is the root. `fail_node` is `NULL` (`none`) until it is
set.

Three loops of the source are driven by fuel here: following fail links (`getFallNode`), the breadth-first
pass (`linkLoop`) and the scan of the text (`findLoop`). Each returns `none` when it runs out of fuel or
would follow a `NULL` link, so a result of `some` says that the source's loop ends and is well defined. The
fuel each is started with is always enough (`Correctness.FailLinks`, `Correctness.FindMatches`).
-/

namespace Hiaux
namespace Strings

open Lib

/-- The order of `char` keys in a `std::map`: `char` is signed. -/
def charCmp (a b : UInt8) : Ordering := compareOn UInt8.toInt8 a b

instance : Std.TransCmp charCmp := inferInstanceAs (Std.TransCmp (compareOn UInt8.toInt8))

instance : Std.LawfulEqCmp charCmp where
  eq_of_compare := by
    intro a b h
    have he : a.toInt8 = b.toInt8 := Std.LawfulEqCmp.eq_of_compare h
    exact congrArg Int8.toUInt8 he

/-- `BorNode`; pointers are heap addresses. -/
structure BorNode where
  matches_ : List Bytes
  children : Std.ExtTreeMap UInt8 Nat charCmp
  failNode : Option Nat

/-- A new node: no words, no children, a `NULL` link. -/
def BorNode.new : BorNode := ⟨[], ∅, none⟩

/-- The nodes allocated so far. -/
abbrev Heap := List BorNode

namespace Heap

/-- Following a pointer. -/
def node (h : Heap) (p : Nat) : BorNode := h[p]?.getD BorNode.new

/-- `p->m_children.find(c)`. -/
def child (h : Heap) (p : Nat) (c : UInt8) : Option Nat := (h.node p).children[c]?

/-! ## Building the tree -/

/-- `BorNode::addWord` on the node at `p`. -/
def addWord (h : Heap) (p : Nat) (word : Bytes) : Bytes → Heap
  | [] => h.modify p (fun n => { n with matches_ := n.matches_ ++ [word] })
  | c :: suff =>
      match h.child p c with
      | some q => addWord h q word suff
      | none =>
          let q := h.length
          let h' := h.modify p (fun n => { n with children := n.children.insert c q }) ++ [BorNode.new]
          addWord h' q word suff

/-- `p->setFailNode(f)`. -/
def setFailNode (h : Heap) (p f : Nat) : Heap := h.modify p (fun n => { n with failNode := some f })

/-- Appending copies of matches to those of `p`. -/
def pushMatches (h : Heap) (p : Nat) (ws : List Bytes) : Heap :=
  h.modify p (fun n => { n with matches_ := n.matches_ ++ ws })

/-- The children of `p`, in the order of the map. -/
def childList (h : Heap) (p : Nat) : List (UInt8 × Nat) := (h.node p).children.toList

/-- `p->getFallNode(c)`: `none` when a `NULL` link would be followed or the chain has not ended. -/
def getFallNode (h : Heap) : Nat → Nat → UInt8 → Option Nat
  | 0, _, _ => none
  | fuel + 1, p, c =>
      match (h.node p).failNode with
      | none => none
      | some f =>
          match h.child f c with
          | some q => some q
          | none => if p ≠ f then getFallNode h fuel f c else some p

/-! ## The breadth-first pass -/

/-- The inner loop: the fail link and the inherited matches of each child of `cur`. -/
def linkChildren (h : Heap) (cur : Nat) : List (UInt8 × Nat) → Option Heap
  | [] => some h
  | (c, q) :: rest =>
      match h.getFallNode (h.length + 1) cur c with
      | none => none
      | some f => linkChildren ((h.setFailNode q f).pushMatches q (h.node f).matches_) cur rest

/-- The outer loop, over the queue. -/
def linkLoop : Nat → Heap → List Nat → Option Heap
  | _, h, [] => some h
  | 0, _, _ :: _ => none
  | fuel + 1, h, cur :: queue =>
      match linkChildren h cur (h.childList cur) with
      | none => none
      | some h' => linkLoop fuel h' (queue ++ (h'.childList cur).map Prod.snd)

end Heap

/-- The tree before the breadth-first pass: the root is its own fail node, and the words are added. -/
def wordTree (dict : List Bytes) : Heap :=
  dict.foldl (fun h w => h.addWord 0 w w) (Heap.setFailNode [BorNode.new] 0 0)

/-- The tree with the links of the root's children set. -/
def rootLinked (dict : List Bytes) : Heap :=
  ((wordTree dict).childList 0).foldl (fun h cq => h.setFailNode cq.2 0) (wordTree dict)

/-- `AhoCorasick::AhoCorasick`. -/
def build (dict : List Bytes) : Option Heap :=
  Heap.linkLoop (rootLinked dict).length (rootLinked dict) (((wordTree dict).childList 0).map Prod.snd)

/-! ## Scanning -/

/-- The loop of `findMatches` at position `i` in node `cur`. The position of a match is computed as
    `i - size + 1` in `size_t`; the subtraction may wrap, and the addition undoes it. -/
def findLoop (h : Heap) (text : Bytes) : Nat → Nat → Nat → List (Bytes × Nat) → Option (List (Bytes × Nat))
  | 0, _, i, acc => if i < text.length then none else some acc
  | fuel + 1, cur, i, acc =>
      match text[i]? with
      | none => some acc
      | some c =>
          match h.child cur c with
          | some q =>
              findLoop h text fuel q (i + 1)
                (acc ++ (h.node q).matches_.map (fun w => (w, i + 1 - w.length)))
          | none =>
              match (h.node cur).failNode with
              | none => none
              | some f => findLoop h text fuel f (if cur = f then i + 1 else i) acc

/-- `AhoCorasick::findMatches`: the matches appended to `acc`. Every round either reads a character or
    moves up the tree, and the tree is climbed one level per character. -/
def findMatches (h : Heap) (text : Bytes) (acc : List (Bytes × Nat)) : Option (List (Bytes × Nat)) :=
  findLoop h text (2 * text.length) 0 0 acc

end Strings
end Hiaux
