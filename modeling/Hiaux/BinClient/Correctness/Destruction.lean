import Hiaux.BinClient.Correctness.Requests

/-!
# `BinClient.Correctness.Destruction` — what the destructor finishes

`BinClientA::~BinClientA` does nothing itself. The destruction of its tables ends every connection, and a
connection that ends finishes the requests it still waits for. The requests that no connection has taken
yet are dropped with `m_new_requests`, and their `onFinished` is never called.
-/

namespace Hiaux
namespace BinClient
namespace BinClientA

open Lib Strings Network

variable {s t : BinClientA} {i j : Nat}

/-! ## Connections that nothing refers to -/

/-- `collect` looks at the tables and the connections only. -/
theorem release_newRequests (i : Nat) (rest : List Request) (s : BinClientA) :
    { s with newRequests := rest }.release i = { s.release i with newRequests := rest } := by
  have href : { s with newRequests := rest }.referenced i = s.referenced i := rfl
  unfold release
  rw [href]
  split <;> rfl

theorem foldl_release_newRequests (l : List Nat) (rest : List Request) (s : BinClientA) :
    l.foldl (fun s i => s.release i) { s with newRequests := rest } =
      { l.foldl (fun s i => s.release i) s with newRequests := rest } := by
  induction l generalizing s with
  | nil => rfl
  | cons i l ih =>
      simp only [List.foldl_cons]
      rw [release_newRequests, ih]

theorem collect_newRequests (rest : List Request) (s : BinClientA) :
    { s with newRequests := rest }.collect = { s.collect with newRequests := rest } :=
  foldl_release_newRequests _ rest s

/-- What stays as it is when connections are destroyed. -/
structure Kept (s t : BinClientA) : Prop where
  allocated : t.allocated = s.allocated
  connections : t.connections = s.connections
  freeConnections : t.freeConnections = s.freeConnections
  newRequests : t.newRequests = s.newRequests
  issued : t.issued = s.issued

theorem kept_release (i : Nat) (s : BinClientA) : Kept s (s.release i) := by
  unfold release
  split <;> exact ⟨rfl, rfl, rfl, rfl, rfl⟩

theorem Kept.trans {u : BinClientA} (h : Kept s t) (h' : Kept t u) : Kept s u :=
  ⟨h'.allocated.trans h.allocated, h'.connections.trans h.connections,
    h'.freeConnections.trans h.freeConnections, h'.newRequests.trans h.newRequests, h'.issued.trans h.issued⟩

theorem kept_foldl_release (l : List Nat) (s : BinClientA) : Kept s (l.foldl (fun s i => s.release i) s) := by
  induction l generalizing s with
  | nil => exact ⟨rfl, rfl, rfl, rfl, rfl⟩
  | cons i l ih => exact (kept_release i s).trans (ih (s.release i))

theorem referenced_release (i j : Nat) (s : BinClientA) : (s.release i).referenced j = s.referenced j := by
  rw [referenced, (kept_release i s).connections, (kept_release i s).freeConnections, referenced]

/-- A connection that is released waits for nothing. -/
theorem conn_release (i j : Nat) (s : BinClientA) :
    ((s.release i).conn j).sentRequests =
      if j = i ∧ s.referenced i = false then [] else (s.conn j).sentRequests := by
  unfold release
  cases href : s.referenced i with
  | true => simp
  | false =>
      rw [if_neg Bool.false_ne_true]
      show ((s.setConn i { s.conn i with sentRequests := [] }).objects j).conn.sentRequests = _
      by_cases hji : j = i
      · subst hji
        rw [setConn, objects_modify_self, if_pos ⟨rfl, rfl⟩]
      · rw [setConn, objects_modify_of_ne _ hji, if_neg fun h => hji h.1]
        rfl

theorem conn_foldl_release (l : List Nat) (j : Nat) (s : BinClientA) :
    ((l.foldl (fun s i => s.release i) s).conn j).sentRequests =
      if j ∈ l ∧ s.referenced j = false then [] else (s.conn j).sentRequests := by
  induction l generalizing s with
  | nil => simp
  | cons i l ih =>
      rw [List.foldl_cons, ih, referenced_release, conn_release]
      by_cases hji : j = i
      · subst hji
        by_cases href : s.referenced j = false <;> simp [href]
      · simp [hji]

/-- A connection that no table refers to does not wait for a response at the end of a handler. -/
theorem conn_collect (hj : j < s.allocated) (href : s.referenced j = false) :
    (s.collect.conn j).sentRequests = [] := by
  rw [collect, conn_foldl_release, if_pos ⟨List.mem_range.mpr hj, href⟩]

/-! ## The destructor -/

/-- What the destructor does to the tables does not depend on the new requests. -/
theorem destroy_eq (s : BinClientA) : s.destroy = { s.clearFree.clearConnections with newRequests := [] } := by
  have hfirst : { s with newRequests := [] }.clearFree = { s.clearFree with newRequests := [] } :=
    collect_newRequests [] { s with freeConnections := ∅ }
  rw [destroy, hfirst]
  exact collect_newRequests [] { s.clearFree with connections := ∅ }

theorem Inv.clearFree (h : Inv s) : Inv s.clearFree := by
  have hfree : Inv { s with freeConnections := ∅ } := h.shrink (fun ht => ht) (fun ht => absurd ht (by simp))
  exact hfree.collect

theorem Inv.clearConnections (h : Inv s) : Inv s.clearConnections := by
  have hnone : Inv { s with connections := ∅ } := h.shrink (fun ht => absurd ht (by simp)) h.free
  exact hnone.collect

theorem kept_clearFree (s : BinClientA) : Kept { s with freeConnections := ∅ } s.clearFree :=
  kept_foldl_release _ _

theorem kept_clearConnections (s : BinClientA) : Kept { s with connections := ∅ } s.clearConnections :=
  kept_foldl_release _ _

/-- The new requests are those that the destructor does not finish. -/
theorem Inv.count_destroyed (h : Inv s) {q : Request} (hq : q ∈ s.issued) :
    s.newRequests.count q + (s.destroy.finished.map Finished.request).count q = 1 := by
  have hfirst := kept_clearFree s
  have hlast := kept_clearConnections s.clearFree
  have hissued : q ∈ s.clearFree.clearConnections.issued := by
    rw [hlast.issued, hfirst.issued]
    exact hq
  have hplaced := h.clearFree.clearConnections.count_placed hissued
  -- no connection is left, so nothing is placed with one
  have hnone : ∑ i ∈ Finset.range s.clearFree.clearConnections.allocated,
      (s.clearFree.clearConnections.conn i).sentRequests.count q = 0 := by
    refine Finset.sum_eq_zero fun i hi => ?_
    have hlt := Finset.mem_range.mp hi
    rw [hlast.allocated] at hlt
    have href : { s.clearFree with connections := ∅ }.referenced i = false := by
      simp [referenced, hfirst.freeConnections]
    have hgone : (s.clearFree.clearConnections.conn i).sentRequests = [] := conn_collect hlt href
    rw [hgone]
    rfl
  rw [hnone, hlast.newRequests, hfirst.newRequests] at hplaced
  rw [destroy_eq]
  exact hplaced

/-- **The destructor finishes what connections have taken, and drops the rest**: after every run that ends
    with the destruction of the client, `onFinished` has been called exactly once for each request passed to
    `call` if and only if none was waiting in `m_new_requests`. -/
theorem destroyed_exactly_once_iff (pb : Protobuf) {attempts : List (Option Dialed)} {inputs : List Input}
    {s₀ : BinClientA} (hnew : new attempts = some s₀) (hrun : s₀.run pb inputs = some s) :
    (∀ q ∈ s.issued, (s.destroy.finished.map Finished.request).count q = 1) ↔ s.newRequests = [] := by
  have hinv : Inv s := run_invariant Inv Inv.step (Inv.new hnew) hrun
  constructor
  · intro honce
    refine List.eq_nil_iff_forall_not_mem.mpr fun q hq => ?_
    have hissued : q ∈ s.issued := by
      have hmem : q ∈ (s.issued : Multiset Request) := by
        rw [← hinv.issued]
        exact Multiset.mem_add.mpr (Or.inl hq)
      exact hmem
    have hcount := hinv.count_destroyed hissued
    rw [honce q hissued] at hcount
    have hpos := List.count_pos_iff.mpr hq
    omega
  · intro hnil q hq
    have hcount := hinv.count_destroyed hq
    rw [hnil] at hcount
    simpa using hcount

/-- A call is made and its request sent; its response is still awaited. -/
def awaited : List Input :=
  [.call pingCall, .read 5 (fun _ => 0) [.data (ascii "hiapi_connected"), .again] none,
    .write 5 (.accepted 1000) none]

theorem awaited_runs :
    (((new oneAttempt).get oneAttempt_connects).run shortWire awaited).isSome = true := by decide +kernel

theorem awaited_destroyed :
    ∃ s₀ s, new oneAttempt = some s₀ ∧ s₀.run shortWire awaited = some s ∧
      s.destroy.finished.map (fun f => (f.request.id, f.ok)) = [(0, false)] ∧
      ∀ q ∈ s.issued, (s.destroy.finished.map Finished.request).count q = 1 := by
  refine ⟨_, _, (Option.some_get oneAttempt_connects).symm, (Option.some_get awaited_runs).symm,
    by decide +kernel, ?_⟩
  exact (destroyed_exactly_once_iff shortWire (Option.some_get oneAttempt_connects).symm
    (Option.some_get awaited_runs).symm).mpr (by decide +kernel)

theorem newCall_runs :
    (((new oneAttempt).get oneAttempt_connects).run shortWire [.call pingCall]).isSome = true := by
  decide +kernel

/-- A call is made, and the client destroyed before a connection takes its request: `onFinished` is never
    called. -/
theorem newCall_dropped :
    ∃ s₀ s, new oneAttempt = some s₀ ∧ s₀.run shortWire [.call pingCall] = some s ∧ s.undefined = false ∧
      s.issued.length = 1 ∧ s.destroy.finished.map Finished.request = [] :=
  ⟨_, _, (Option.some_get oneAttempt_connects).symm, (Option.some_get newCall_runs).symm, by decide +kernel,
    by decide +kernel, by decide +kernel⟩

end BinClientA
end BinClient
end Hiaux
