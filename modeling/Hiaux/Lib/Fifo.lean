import Mathlib.Data.List.Infix
import Mathlib.Data.List.Nodup

/-!
# `Lib.Fifo` — a queue whose front is processed before it is popped

A consumer takes the entry at the front, processes it, and pops it afterwards. Where it is interrupted in
between, the entry is processed and still there. Entries are numbered in the order in which they were
pushed, so that equal entries are told apart. Every entry is processed exactly once exactly if the consumer
never comes back to an entry at which it was interrupted (`exactlyOnce_process_iff`).
-/

namespace Lib

/-- How the processing of an entry ends: the entry is popped, the consumer is interrupted, or it has stopped
    for good. -/
inductive Exit where
  | popped
  | interrupted
  | stopped
deriving DecidableEq, Repr

/-- What is left of a queue whose front was processed. -/
def Exit.remaining {α : Type} (exit : Exit) (q : List α) : List α :=
  if exit = .popped then q.tail else q

theorem Exit.remaining_popped {α : Type} {q q' : List α} (h : q <+: q') :
    Exit.popped.remaining q <+: q'.tail := by
  have htail : q.drop 1 <+: q'.drop 1 := h.drop 1
  rw [List.drop_one, List.drop_one] at htail
  exact htail

/-- The history of a queue: all entries pushed, how many of them have been popped, the numbers of those
    processed, and how the processing of the last one ended. -/
structure Fifo (α : Type) where
  pushed : List α
  popped : Nat
  processed : List Nat
  last : Exit

namespace Fifo

variable {α : Type}

/-- No entry yet. -/
def empty : Fifo α := ⟨[], 0, [], .popped⟩

/-- The entries in the queue. -/
def queue (f : Fifo α) : List α := f.pushed.drop f.popped

/-- New entries at the back. -/
def push (xs : List α) (f : Fifo α) : Fifo α := { f with pushed := f.pushed ++ xs }

/-- New entries at the back, as many as the queue has become longer. -/
def extend (q : List α) (f : Fifo α) : Fifo α := f.push (q.drop f.queue.length)

/-- The front is processed. -/
def process (exit : Exit) (f : Fifo α) : Fifo α where
  pushed := f.pushed
  popped := if exit = .popped then f.popped + 1 else f.popped
  processed := f.processed ++ [f.popped]
  last := exit

/-- The entries processed, in the order in which they were. -/
def entries (f : Fifo α) : List α := f.processed.filterMap (fun n => f.pushed[n]?)

/-- No entry is processed twice, and once the queue is empty all have been processed. -/
def ExactlyOnce (f : Fifo α) : Prop :=
  f.processed.Nodup ∧ (f.queue = [] → ∀ n < f.pushed.length, n ∈ f.processed)

/-- What holds of every history: the popped entries have been processed, and beside them at most the front,
    at which the consumer did not come to an end. -/
structure Sound (f : Fifo α) : Prop where
  bounded : f.popped ≤ f.pushed.length
  popped : ∀ n < f.popped, n ∈ f.processed
  processed : ∀ n ∈ f.processed, n < f.popped ∨ (n = f.popped ∧ f.last ≠ .popped)
  last : f.last ≠ .popped → f.popped ∈ f.processed ∧ f.popped < f.pushed.length

variable {f : Fifo α}

theorem Sound.empty : Sound (empty : Fifo α) where
  bounded := Nat.le_refl 0
  popped := fun n hn => absurd hn (Nat.not_lt_zero n)
  processed := fun _ hn => absurd hn List.not_mem_nil
  last := fun h => absurd rfl h

theorem Sound.push (h : f.Sound) (xs : List α) : (f.push xs).Sound where
  bounded := Nat.le_trans h.bounded (by simp [Fifo.push])
  popped := h.popped
  processed := h.processed
  last := fun hlast => (h.last hlast).imp id (fun hlt => Nat.lt_of_lt_of_le hlt (by simp [Fifo.push]))

theorem Sound.extend (h : f.Sound) (q : List α) : (f.extend q).Sound := h.push _

theorem Sound.process (h : f.Sound) (hne : f.queue ≠ []) (exit : Exit) : (f.process exit).Sound := by
  have hlt : f.popped < f.pushed.length := by
    by_contra hge
    exact hne (List.drop_eq_nil_of_le (Nat.le_of_not_lt hge))
  have hlast : f.popped ∈ f.processed ++ [f.popped] := List.mem_concat_self
  by_cases hexit : exit = .popped
  · subst hexit
    refine ⟨hlt, ?_, ?_, fun hi => absurd rfl hi⟩
    · intro n hn
      rcases Nat.lt_succ_iff_lt_or_eq.mp hn with hn | rfl
      · exact List.mem_append_left _ (h.popped n hn)
      · exact hlast
    · intro n hn
      refine Or.inl (Nat.lt_succ_of_le ?_)
      rcases List.mem_append.mp hn with hn | hn
      · exact (h.processed n hn).elim Nat.le_of_lt (fun hn => Nat.le_of_eq hn.1)
      · exact Nat.le_of_eq (List.mem_singleton.mp hn)
  · have hpopped : (f.process exit).popped = f.popped := if_neg hexit
    refine ⟨hpopped ▸ h.bounded, ?_, ?_, fun _ => hpopped ▸ ⟨hlast, hlt⟩⟩
    · rw [hpopped]
      exact fun n hn => List.mem_append_left _ (h.popped n hn)
    · rw [hpopped]
      intro n hn
      rcases List.mem_append.mp hn with hn | hn
      · exact (h.processed n hn).imp id (fun hn => ⟨hn.1, hexit⟩)
      · exact Or.inr ⟨List.mem_singleton.mp hn, hexit⟩

/-! ## The entries in the queue -/

theorem queue_push (h : f.Sound) (xs : List α) : (f.push xs).queue = f.queue ++ xs :=
  List.drop_append_of_le_length h.bounded

/-- A queue that was added to at the back. -/
theorem queue_extend (h : f.Sound) {q : List α} (hq : f.queue <+: q) : (f.extend q).queue = q := by
  obtain ⟨rest, rfl⟩ := hq
  have hrest : (f.queue ++ rest).drop f.queue.length = rest := List.drop_left
  rw [extend, hrest, queue_push h]

theorem queue_process (exit : Exit) : (f.process exit).queue = exit.remaining f.queue := by
  show f.pushed.drop (if exit = .popped then f.popped + 1 else f.popped) = exit.remaining _
  unfold Exit.remaining queue
  split
  · exact List.tail_drop.symm
  · rfl

/-! ## The entries processed -/

theorem entries_push (h : f.Sound) (xs : List α) : (f.push xs).entries = f.entries := by
  refine List.filterMap_congr fun n hn => ?_
  have hlt : n < f.pushed.length := by
    rcases h.processed n hn with hlt | ⟨rfl, hlast⟩
    · exact Nat.lt_of_lt_of_le hlt h.bounded
    · exact (h.last hlast).2
  exact List.getElem?_append_left hlt

theorem entries_process {x : α} {rest : List α} (hq : f.queue = x :: rest) (exit : Exit) :
    (f.process exit).entries = f.entries ++ [x] := by
  have hx : f.pushed[f.popped]? = some x := by
    have hhead : (f.pushed.drop f.popped)[0]? = some x := by
      rw [show f.pushed.drop f.popped = x :: rest from hq]
      rfl
    rw [List.getElem?_drop] at hhead
    exact hhead
  show (f.processed ++ [f.popped]).filterMap (fun n => f.pushed[n]?) = f.entries ++ [x]
  rw [List.filterMap_append, List.filterMap_cons_some hx, List.filterMap_nil]
  rfl

/-! ## Exactly once -/

/-- Once the queue is empty, everything has been popped, and so processed. -/
theorem Sound.exactlyOnce_iff (h : f.Sound) : f.ExactlyOnce ↔ f.processed.Nodup := by
  refine ⟨And.left, fun hnodup => ⟨hnodup, ?_⟩⟩
  intro hnil n hn
  have hle : f.pushed.length ≤ f.popped := List.drop_eq_nil_iff.mp hnil
  exact h.popped n (Nat.lt_of_lt_of_le hn hle)

theorem exactlyOnce_empty : (empty : Fifo α).ExactlyOnce := Sound.empty.exactlyOnce_iff.mpr List.nodup_nil

theorem exactlyOnce_extend_iff (h : f.Sound) (q : List α) : (f.extend q).ExactlyOnce ↔ f.ExactlyOnce := by
  rw [(h.extend q).exactlyOnce_iff, h.exactlyOnce_iff]
  exact Iff.rfl

/-- **Processing the front** keeps the law exactly if the entry processed before was popped. -/
theorem exactlyOnce_process_iff (h : f.Sound) (hne : f.queue ≠ []) (honce : f.ExactlyOnce) (exit : Exit) :
    (f.process exit).ExactlyOnce ↔ f.last = .popped := by
  rw [(h.process hne exit).exactlyOnce_iff]
  show (f.processed ++ [f.popped]).Nodup ↔ _
  constructor
  · intro hnodup
    by_contra hlast
    exact List.disjoint_of_nodup_append hnodup (h.last hlast).1 List.mem_cons_self
  · intro hlast
    refine honce.1.append (List.nodup_singleton _) ?_
    intro n hn hfront
    obtain rfl := List.mem_singleton.mp hfront
    rcases h.processed _ hn with hlt | ⟨-, hne⟩
    · exact absurd hlt (Nat.lt_irrefl _)
    · exact hne hlast

end Fifo

end Lib
