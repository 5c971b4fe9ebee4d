import Hiaux.BinClient.BinClientA
import Hiaux.BinClient.Correctness.Wire
import Hiaux.Lib.Lookup
import Hiaux.Lib.Pairing
import Hiaux.Lib.Parties

/-!
# `BinClient.Correctness.Requests` — no request is duplicated or mis-paired

A request passed to `call` waits in `m_new_requests` until it is added to one connection, once. There it
waits for its response, or for the connection's end. The invariant keeps two accounts: the new requests and
all requests ever added make up the requests issued (`Inv.issued`); and the requests added to a connection
are those it has finished followed by those it still waits for (`Accounts.split`). A response is paired
with a request by position, which is right because as many responses were received on a connection in the
table as requests were finished on it (`Inv.count`).
-/

namespace Hiaux
namespace BinClient

open Lib Strings Network

/-! ## Receiving on one connection -/

namespace Connection

/-- **Responses are paired with the requests from the front of the queue**, as far as it goes. -/
theorem onResponses_eq (c : Connection) (resps : List Bytes) :
    c.onResponses resps = ⟨{ c with sentRequests := c.sentRequests.drop resps.length },
      c.sentRequests.zip resps, none, decide (c.sentRequests.length < resps.length)⟩ := by
  induction resps generalizing c with
  | nil => rw [List.zip_nil_right]; rfl
  | cons resp resps ih =>
      unfold onResponses
      split
      · rename_i hnil
        have hdrop : c.sentRequests.drop (resp :: resps).length = c.sentRequests := by
          rw [hnil]
          rfl
        have hzip : c.sentRequests.zip (resp :: resps) = [] := by
          rw [hnil]
          rfl
        rw [hdrop, hzip, decide_eq_true (by simp [hnil])]
      · rename_i req rest hsent
        rw [ih, hsent]
        simp

/-- **What is done with the bytes of a receive**: the responses are paired with the requests from the front, and
    what the parser threw is thrown on, unless a request was missing before. -/
theorem afterRecv_eq (junk : Junk) (readbf : Bytes) (c : Connection) :
    c.afterRecv junk readbf =
      ⟨{ c with
          parser := (c.parsed junk readbf).reader,
          state := if (c.parsed junk readbf).reader.handshakedCalls ≠ c.parser.handshakedCalls then .active
            else c.state,
          sentRequests := c.sentRequests.drop (c.parsed junk readbf).outputs.length },
        c.sentRequests.zip (c.parsed junk readbf).outputs,
        if c.sentRequests.length < (c.parsed junk readbf).outputs.length then none
          else (c.parsed junk readbf).thrown.map ConnEx.parser,
        decide (c.sentRequests.length < (c.parsed junk readbf).outputs.length)⟩ := by
  unfold afterRecv
  dsimp only
  rw [onResponses_eq]
  dsimp only
  by_cases hmissing : c.sentRequests.length < (c.parsed junk readbf).outputs.length
  · rw [if_pos (decide_eq_true hmissing), if_pos hmissing]
  · rw [if_neg (by simp [hmissing]), if_neg hmissing]

/-- **What a receive does to the queue**: it finishes requests from the front, with the responses received
    in their order, one for each unless the queue runs out. -/
theorem performRecv_spec (junk : Junk) (rs : List RecvResult) (c : Connection) :
    (c.performRecv junk rs).finished.map Prod.fst ++ (c.performRecv junk rs).conn.sentRequests =
        c.sentRequests ∧
      (c.performRecv junk rs).finished.map Prod.snd <+: c.responses junk rs ∧
      ((c.performRecv junk rs).undefined = false →
        (c.performRecv junk rs).finished.length = (c.responses junk rs).length) := by
  unfold performRecv responses
  split
  · rename_i readbf _
    rw [afterRecv_eq]
    have hfirst := map_fst_zip_append_drop c.sentRequests (c.parsed junk readbf).outputs
    have hresps : (c.sentRequests.zip (c.parsed junk readbf).outputs).map Prod.snd <+:
        (c.parsed junk readbf).outputs := by
      rw [map_snd_zip_eq_take]
      exact List.take_prefix _ _
    have hlen : decide (c.sentRequests.length < (c.parsed junk readbf).outputs.length) = false →
        (c.sentRequests.zip (c.parsed junk readbf).outputs).length = (c.parsed junk readbf).outputs.length := by
      intro h
      have hle := Nat.not_lt.mp (of_decide_eq_false h)
      rw [List.length_zip, Nat.min_eq_right hle]
    exact ⟨hfirst, hresps, hlen⟩
  · exact ⟨rfl, List.nil_prefix, fun _ => rfl⟩
  · exact ⟨rfl, List.nil_prefix, fun h => absurd h (by simp)⟩

/-- Sending concerns neither the queue nor the parser. -/
theorem performSend_kept (r : SendResult) (c : Connection) :
    (c.performSend r).1.sentRequests = c.sentRequests ∧ (c.performSend r).1.parser = c.parser := by
  unfold performSend
  split
  · exact ⟨rfl, rfl⟩
  · split
    · exact ⟨rfl, rfl⟩
    · exact ⟨rfl, rfl⟩
    · dsimp only
      split <;> exact ⟨rfl, rfl⟩

theorem checkKeepAlive_kept (now : Nat) (r : SendResult) (c : Connection) :
    (c.checkKeepAlive now r).1.sentRequests = c.sentRequests ∧ (c.checkKeepAlive now r).1.parser = c.parser := by
  unfold checkKeepAlive
  split
  · exact performSend_kept r _
  · exact ⟨rfl, rfl⟩

end Connection

/-! ## The invariant -/

/-- The account of one connection: the calls of `onFinished` it has made, against the requests added to it
    and the responses received on it. -/
structure Accounts (o : ConnObject) (log : List Finished) : Prop where
  split : log.map Finished.request ++ o.conn.sentRequests = o.added
  paired : ∀ {j : Nat} {f : Finished}, log[j]? = some f → f.ok = true → o.received[j]? = some f.resp

namespace BinClientA

/-- The calls of `onFinished` made by a connection, in order. -/
def finishedOn (s : BinClientA) (i : Nat) : List Finished := s.finished.filter (·.conn = i)

/-- The invariant of the client. -/
structure Inv (s : BinClientA) : Prop where
  table : ∀ {sock i : Nat}, s.connections[sock]? = some i → i < s.allocated
  free : ∀ {sock i : Nat}, s.freeConnections[sock]? = some i → i < s.allocated
  logged : ∀ f ∈ s.finished, f.conn < s.allocated
  ids : s.issued.map Request.id = List.range s.issued.length
  issued : (s.newRequests : Multiset Request) +
    ∑ i ∈ Finset.range s.allocated, ((s.objects i).added : Multiset Request) = s.issued
  accounts : ∀ {i}, i < s.allocated → Accounts (s.objects i) (s.finishedOn i)
  count : ∀ {sock i : Nat}, s.undefined = false → s.connections[sock]? = some i →
    (s.objects i).received.length = (s.finishedOn i).length

variable {s s' : BinClientA} {i j : Nat}

@[simp] theorem objects_modify_self (f : ConnObject → ConnObject) :
    (s.modify i f).objects i = f (s.objects i) := Function.update_self _ _ _

theorem objects_modify_of_ne (f : ConnObject → ConnObject) (h : j ≠ i) :
    (s.modify i f).objects j = s.objects j := Function.update_of_ne h _ _

/-- **A change of one connection**: what has to be shown for the invariant. The requests `moved` go from
    the new ones to the connection. -/
theorem Inv.change (h : Inv s) (hi : i < s.allocated) (moved : List Request)
    (halloc : s'.allocated = s.allocated) (hobj : ∀ j, j ≠ i → s'.objects j = s.objects j)
    (hlog : ∀ j, j ≠ i → s'.finishedOn j = s.finishedOn j)
    (hlogged : ∀ f ∈ s'.finished, f ∈ s.finished ∨ f.conn = i)
    (htable : ∀ {sock j : Nat}, s'.connections[sock]? = some j → s.connections[sock]? = some j)
    (hfree : ∀ {sock j : Nat}, s'.freeConnections[sock]? = some j → j < s.allocated)
    (hissued : s'.issued = s.issued) (hundef : s'.undefined = false → s.undefined = false)
    (hnew : s.newRequests = moved ++ s'.newRequests)
    (hadded : (s'.objects i).added = (s.objects i).added ++ moved)
    (hacc : Accounts (s'.objects i) (s'.finishedOn i))
    (hcount : ∀ sock : Nat, s'.undefined = false → s'.connections[sock]? = some i →
      (s'.objects i).received.length = (s'.finishedOn i).length) : Inv s' := by
  refine ⟨?_, ?_, ?_, by rw [hissued]; exact h.ids, ?_, ?_, ?_⟩
  · intro sock j hj
    rw [halloc]
    exact h.table (htable hj)
  · intro sock j hj
    rw [halloc]
    exact hfree hj
  · intro f hf
    rw [halloc]
    rcases hlogged f hf with hf | hf
    · exact h.logged f hf
    · rw [hf]
      exact hi
  -- the requests moved are what the connection contributes now and did not before
  · have hsum :
        ∑ j ∈ Finset.range s.allocated, ((s.objects j).added : Multiset Request) + (moved : Multiset Request) =
        ∑ j ∈ Finset.range s.allocated, ((s'.objects j).added : Multiset Request) := by
      refine sum_move rfl hi (fun j hj => by rw [hobj j hj]) ?_
      rw [hadded, ← Multiset.coe_add]
      abel
    rw [hissued, ← h.issued, hnew, halloc, ← hsum, ← Multiset.coe_add]
    abel
  · intro j hj
    by_cases hji : j = i
    · rw [hji]
      exact hacc
    · rw [hobj j hji, hlog j hji]
      exact h.accounts (halloc ▸ hj)
  · intro sock j hu hj
    by_cases hji : j = i
    · rw [hji] at hj ⊢
      exact hcount sock hu hj
    · rw [hobj j hji, hlog j hji]
      exact h.count (hundef hu) (htable hj)

/-! ## Operations -/

/-- A change that keeps the requests a connection waits for. -/
theorem Inv.setConn (h : Inv s) (hi : i < s.allocated) {c : Connection}
    (hc : c.sentRequests = (s.conn i).sentRequests) : Inv (s.setConn i c) := by
  have hself : (s.setConn i c).objects i = { s.objects i with conn := c } := objects_modify_self _
  refine h.change hi [] rfl (fun j hj => objects_modify_of_ne _ hj) (fun _ _ => rfl)
    (fun _ hf => Or.inl hf) (fun ht => ht) h.free rfl id rfl ?_ ?_ ?_
  · rw [hself, List.append_nil]
  · rw [hself]
    refine ⟨?_, (h.accounts hi).paired⟩
    show (s.finishedOn i).map Finished.request ++ c.sentRequests = (s.objects i).added
    rw [hc]
    exact (h.accounts hi).split
  · intro sock hu ht
    rw [hself]
    exact h.count hu ht

/-- A new request is taken for a connection. -/
theorem Inv.addRequest (h : Inv s) (hi : i < s.allocated) {req : Request} {rest : List Request}
    (hnew : s.newRequests = req :: rest) : Inv { s.addRequest i req with newRequests := rest } := by
  have hself : (s.addRequest i req).objects i = { s.objects i with
      conn := (s.objects i).conn.addRequest req
      added := (s.objects i).added ++ [req] } := objects_modify_self _
  have hother : ∀ j, j ≠ i → (s.addRequest i req).objects j = s.objects j :=
    fun j hj => objects_modify_of_ne _ hj
  refine h.change hi [req] rfl hother (fun _ _ => rfl)
    (fun _ hf => Or.inl hf) (fun ht => ht) h.free rfl id hnew ?_ ?_ ?_
  · show ((s.addRequest i req).objects i).added = _
    rw [hself]
  · show Accounts ((s.addRequest i req).objects i) (s.finishedOn i)
    rw [hself]
    refine ⟨?_, (h.accounts hi).paired⟩
    show (s.finishedOn i).map Finished.request ++ ((s.objects i).conn.sentRequests ++ [req]) =
      (s.objects i).added ++ [req]
    rw [← List.append_assoc, (h.accounts hi).split]
  · intro sock hu ht
    show ((s.addRequest i req).objects i).received.length = _
    rw [hself]
    exact h.count hu ht

/-- Connections leave the tables. -/
theorem Inv.shrink (h : Inv s) {connections freeConnections : Std.ExtTreeMap Nat Nat}
    (htable : ∀ {sock j : Nat}, connections[sock]? = some j → s.connections[sock]? = some j)
    (hfree : ∀ {sock j : Nat}, freeConnections[sock]? = some j → j < s.allocated) :
    Inv { s with connections := connections, freeConnections := freeConnections } :=
  ⟨fun ht => h.table (htable ht), hfree, h.logged, h.ids, h.issued, h.accounts,
    fun hu ht => h.count hu (htable ht)⟩

theorem Inv.removeConnection (h : Inv s) (i : Nat) : Inv (s.removeConnection i) :=
  h.shrink getElem?_of_erase (fun ht => h.free (getElem?_of_erase ht))

theorem Inv.setFree (h : Inv s) (sock : Nat) (hi : i < s.allocated) : Inv (s.setFree sock i) := by
  refine h.shrink (fun ht => ht) ?_
  intro sock' j ht
  rw [Std.ExtTreeMap.getElem?_insert] at ht
  split at ht
  · exact Option.some.inj ht ▸ hi
  · exact h.free ht

/-- A connection nothing refers to is not in the table. -/
theorem not_in_table (href : s.referenced i = false) {sock : Nat} : s.connections[sock]? ≠ some i := by
  intro ht
  have hmem : (sock, i) ∈ s.connections.toList :=
    Std.ExtTreeMap.mem_toList_iff_getElem?_eq_some.mpr ht
  have hany : s.connections.toList.any (·.2 = i) = true :=
    List.any_eq_true.mpr ⟨(sock, i), hmem, by simp⟩
  simp [referenced, hany] at href

/-- New entries of the log, all made by one connection. -/
theorem filter_log {log new : List Finished} (hnew : ∀ f ∈ new, f.conn = i) (j : Nat) :
    (log ++ new).filter (·.conn = j) = log.filter (·.conn = j) ++ if j = i then new else [] := by
  rw [List.filter_append]
  congr 1
  split
  · rename_i hji
    refine List.filter_eq_self.mpr fun f hf => ?_
    rw [hnew f hf, hji]
    exact decide_eq_true rfl
  · rename_i hji
    refine List.filter_eq_nil_iff.mpr fun f hf => ?_
    rw [hnew f hf]
    simpa using Ne.symm hji

/-- A connection changes and finishes some of its requests. -/
theorem Inv.finish (h : Inv s) (hi : i < s.allocated) {o : ConnObject} {new : List Finished}
    {undefined : Bool} (hundef : undefined = false → s.undefined = false)
    (hconn : ∀ f ∈ new, f.conn = i) (hadded : o.added = (s.objects i).added)
    (hacc : Accounts o (s.finishedOn i ++ new))
    (hcount : ∀ sock : Nat, undefined = false → s.connections[sock]? = some i →
      o.received.length = (s.finishedOn i ++ new).length) :
    Inv { s with
      objects := Function.update s.objects i o
      finished := s.finished ++ new
      undefined := undefined } := by
  have hself : Function.update s.objects i o i = o := Function.update_self _ _ _
  -- the new calls are this connection's and come last in its own log
  have hlog : (s.finished ++ new).filter (·.conn = i) = s.finishedOn i ++ new :=
    (filter_log hconn i).trans (by rw [if_pos rfl, finishedOn])
  refine h.change hi [] rfl (fun j hj => Function.update_of_ne hj _ _) ?_ ?_ (fun ht => ht) h.free rfl hundef
    rfl ?_ ?_ ?_
  · intro j hj
    exact (filter_log hconn j).trans (by rw [if_neg hj, List.append_nil, finishedOn])
  · intro f hf
    exact (List.mem_append.mp hf).imp id (hconn f)
  · show (Function.update s.objects i o i).added = _
    rw [hself, hadded, List.append_nil]
  · show Accounts (Function.update s.objects i o i) ((s.finished ++ new).filter (·.conn = i))
    rw [hself, hlog]
    exact hacc
  · intro sock hu ht
    show (Function.update s.objects i o i).received.length =
      ((s.finished ++ new).filter (·.conn = i)).length
    rw [hself, hlog]
    exact hcount sock hu ht

/-- The end of a connection finishes what it still waits for. -/
theorem Inv.release (h : Inv s) (hi : i < s.allocated) : Inv (s.release i) := by
  unfold BinClientA.release
  split
  · exact h
  · rename_i href
    rw [Bool.not_eq_true] at href
    -- all requests left are finished with failure, so the account is closed
    refine h.finish hi id ?_ rfl ⟨?_, ?_⟩ ?_
    · intro f hf
      obtain ⟨req, -, rfl⟩ := List.mem_map.mp hf
      rfl
    · have hsplit := (h.accounts hi).split
      simpa [Connection.destroy, conn, Function.comp_def] using hsplit
    · intro j f hf hok
      rw [List.getElem?_append] at hf
      split at hf
      · exact (h.accounts hi).paired hf hok
      -- an entry of the destructor is a failure
      · obtain ⟨req, -, rfl⟩ := List.mem_map.mp (List.mem_of_getElem? hf)
        exact absurd hok (by simp)
    · intro sock _ ht
      exact absurd ht (not_in_table href)

theorem allocated_release (i : Nat) (s : BinClientA) : (s.release i).allocated = s.allocated := by
  unfold BinClientA.release
  split <;> rfl

theorem Inv.collect (h : Inv s) : Inv s.collect := by
  have hall : ∀ (l : List Nat) (t : BinClientA), Inv t → (∀ i ∈ l, i < t.allocated) →
      Inv (l.foldl (fun t i => t.release i) t) := by
    intro l
    induction l with
    | nil => exact fun t ht _ => ht
    | cons i l ih =>
        intro t ht hl
        refine ih _ (ht.release (hl i List.mem_cons_self)) ?_
        intro j hj
        rw [allocated_release]
        exact hl j (List.mem_cons_of_mem i hj)
  exact hall _ s h (fun i hi => List.mem_range.mp hi)

/-- A new connection starts with an empty account. -/
theorem Inv.establish (h : Inv s) {c : Connection} (hc : c.sentRequests = []) (sock : Nat) :
    Inv { s with
      objects := Function.update s.objects s.allocated ⟨c, [], []⟩
      allocated := s.allocated + 1
      connections := s.connections.insertIfNew sock s.allocated } := by
  have hold : ∀ j, j < s.allocated →
      Function.update s.objects s.allocated ⟨c, [], []⟩ j = s.objects j :=
    fun j hj => Function.update_of_ne (Nat.ne_of_lt hj) _ _
  have hself : Function.update s.objects s.allocated ⟨c, [], []⟩ s.allocated = ⟨c, [], []⟩ :=
    Function.update_self _ _ _
  -- nothing was logged under an address not yet allocated
  have hnil : s.finishedOn s.allocated = [] := by
    refine List.filter_eq_nil_iff.mpr fun f hf => ?_
    have := h.logged f hf
    simp only [decide_eq_true_eq]
    omega
  have htable : ∀ {sock' j : Nat}, (s.connections.insertIfNew sock s.allocated)[sock']? = some j →
      j = s.allocated ∨ s.connections[sock']? = some j := by
    intro sock' j ht
    rw [Std.ExtTreeMap.getElem?_insertIfNew] at ht
    split at ht
    · exact Or.inl (Option.some.inj ht).symm
    · exact Or.inr ht
  refine ⟨?_, fun ht => Nat.lt_succ_of_lt (h.free ht), fun f hf => Nat.lt_succ_of_lt (h.logged f hf),
    h.ids, ?_, ?_, ?_⟩
  · intro sock' j ht
    rcases htable ht with rfl | ht
    · exact Nat.lt_succ_self _
    · exact Nat.lt_succ_of_lt (h.table ht)
  · show (s.newRequests : Multiset Request) + ∑ j ∈ Finset.range (s.allocated + 1),
      ((Function.update s.objects s.allocated ⟨c, [], []⟩ j).added : Multiset Request) = s.issued
    rw [Finset.sum_range_succ, hself, ← h.issued]
    have hsum : ∑ j ∈ Finset.range s.allocated,
        ((Function.update s.objects s.allocated ⟨c, [], []⟩ j).added : Multiset Request) =
          ∑ j ∈ Finset.range s.allocated, ((s.objects j).added : Multiset Request) :=
      Finset.sum_congr rfl fun j hj => by rw [hold j (Finset.mem_range.mp hj)]
    rw [hsum]
    simp
  · intro j hj
    show Accounts (Function.update s.objects s.allocated ⟨c, [], []⟩ j) (s.finishedOn j)
    by_cases hja : j = s.allocated
    · subst hja
      rw [hself, hnil]
      exact ⟨by simpa using hc, fun hf => absurd hf (by simp)⟩
    · have hlt : j < s.allocated := by
        have : j < s.allocated + 1 := hj
        omega
      rw [hold j hlt]
      exact h.accounts hlt
  · intro sock' j hu ht
    show (Function.update s.objects s.allocated ⟨c, [], []⟩ j).received.length = (s.finishedOn j).length
    rcases htable ht with rfl | ht
    · rw [hself, hnil]
      rfl
    · rw [hold j (h.table ht)]
      exact h.count hu ht

theorem Inv.establishNewConnection (h : Inv s) (dialed : Option Dialed) :
    Inv (s.establishNewConnection dialed).1 := by
  unfold BinClientA.establishNewConnection
  cases dialed with
  | none => exact h
  | some d =>
      have hsent : (Connection.new d.sock d.now d.sent).1.sentRequests = [] :=
        (Connection.performSend_kept _ _).1
      dsimp only
      split
      · exact h
      · rename_i c heq
        rw [heq] at hsent
        exact h.establish hsent d.sock

theorem Inv.onLostConnection (h : Inv s) (i : Nat) (dialed : Option Dialed) :
    Inv (s.onLostConnection i dialed) :=
  (h.removeConnection i).establishNewConnection dialed

theorem Inv.performSend (h : Inv s) (hi : i < s.allocated) (r : SendResult) (dialed : Option Dialed) :
    Inv (s.performSend i r dialed) := by
  have hsent := (Connection.performSend_kept r (s.conn i)).1
  unfold BinClientA.performSend
  split
  · rename_i c heq
    rw [heq] at hsent
    exact (h.setConn hi hsent).onLostConnection i dialed
  · rename_i c _ _ heq
    rw [heq] at hsent
    exact h.setConn hi hsent

/-- **A receive** on a connection of the table. -/
theorem Inv.performRecv (h : Inv s) (hu : s.undefined = false) {sock : Nat}
    (ht : s.connections[sock]? = some i) (junk : Junk) (rs : List RecvResult) (dialed : Option Dialed) :
    Inv (s.performRecv i junk rs dialed) := by
  have hi := h.table ht
  obtain ⟨hsplit, hprefix, hlen⟩ := Connection.performRecv_spec junk rs (s.conn i)
  unfold BinClientA.performRecv
  generalize (s.conn i).performRecv junk rs = out at hsplit hprefix hlen
  generalize (s.conn i).responses junk rs = received at hprefix hlen
  dsimp only
  have hrecorded : Inv { s.modify i (fun o => { o with
        conn := out.conn, received := o.received ++ received }) with
      finished := s.finished ++ out.finished.map (fun p => ⟨i, p.1, true, p.2⟩)
      undefined := out.undefined } := by
    -- the requests finished are those at the front, and the responses come after those received before
    refine h.finish hi (fun _ => hu) ?_ rfl ⟨?_, ?_⟩ ?_
    · intro f hf
      obtain ⟨p, -, rfl⟩ := List.mem_map.mp hf
      rfl
    · rw [List.map_append, List.map_map, List.append_assoc, ← (h.accounts hi).split]
      exact congrArg (_ ++ ·) hsplit
    · intro j f hf hok
      rw [List.getElem?_append] at hf ⊢
      rw [h.count hu ht]
      split at hf
      · rename_i hlt
        rw [if_pos hlt]
        exact (h.accounts hi).paired hf hok
      -- a response just received
      · rename_i hge
        rw [if_neg hge]
        rw [List.getElem?_map] at hf
        obtain ⟨p, hp, rfl⟩ := Option.map_eq_some_iff.mp hf
        have hlt := (List.getElem?_eq_some_iff.mp hp).1
        have hresp : (out.finished.map Prod.snd)[j - (s.finishedOn i).length]? = some p.2 := by
          rw [List.getElem?_map, hp]
          rfl
        obtain ⟨rest, rfl⟩ := hprefix
        rw [List.getElem?_append_left (by rw [List.length_map]; exact hlt)]
        exact hresp
    · intro sock' hu' _
      rw [List.length_append, List.length_append, List.length_map, h.count hu ht, hlen hu']
  split
  · exact hrecorded
  · split
    · exact hrecorded.onLostConnection i dialed
    · exact hrecorded.onLostConnection i dialed
    · exact hrecorded

/-! ## Handlers -/

theorem Inv.onRead (h : Inv s) (hu : s.undefined = false) (sock : Nat) (junk : Junk)
    (rs : List RecvResult) (dialed : Option Dialed) : Inv (s.onRead sock junk rs dialed) := by
  unfold BinClientA.onRead
  split
  · exact h
  · rename_i i ht
    have hrecv := h.performRecv hu ht junk rs dialed
    dsimp only
    split
    · exact hrecv
    · exact hrecv.collect

theorem Inv.onWrite (h : Inv s) (sock : Nat) (r : SendResult) (dialed : Option Dialed) :
    Inv (s.onWrite sock r dialed) := by
  unfold BinClientA.onWrite
  split
  · exact h
  · rename_i i ht
    have hi := h.table ht
    dsimp only
    split
    · split
      · split
        · rename_i req rest hnew
          exact ((h.addRequest hi hnew).performSend hi r dialed).collect
        · exact (h.setFree sock hi).collect
      · exact (h.performSend hi r dialed).collect
    · split
      · exact ((h.setFree sock hi).performSend hi r dialed).collect
      · exact (h.performSend hi r dialed).collect

theorem Inv.onError (h : Inv s) (sock : Nat) (dialed : Option Dialed) : Inv (s.onError sock dialed) := by
  unfold BinClientA.onError
  split
  · exact h
  · exact (h.onLostConnection _ dialed).collect

theorem Inv.call (h : Inv s) (pb : Protobuf) (c : Call) : Inv (s.call pb c) := by
  refine ⟨h.table, h.free, h.logged, ?_, ?_, h.accounts, h.count⟩
  · show (s.issued ++ [_]).map Request.id = List.range (s.issued ++ [_]).length
    rw [List.map_append, h.ids, List.length_append, List.length_singleton, List.range_succ]
    rfl
  · show ((s.newRequests ++ [_] : List Request) : Multiset Request) + _ =
      ((s.issued ++ [_] : List Request) : Multiset Request)
    rw [← Multiset.coe_add, ← Multiset.coe_add, ← h.issued]
    abel

theorem Inv.putRequestsToFreeConnections (h : Inv s) (r : SendResult) (dialed : Option Dialed) :
    Inv (s.putRequestsToFreeConnections r dialed) := by
  unfold BinClientA.putRequestsToFreeConnections
  split
  · exact h
  · rename_i req rest hnew
    split
    · exact h
    · rename_i sock i hfind
      have hi : i < s.allocated :=
        h.free (Std.ExtTreeMap.mem_toList_iff_getElem?_eq_some.mp (List.mem_of_find?_eq_some hfind))
      have hsend := (h.addRequest hi hnew).performSend hi r dialed
      -- the source pops the request before it adds it, `onWrite` after; the result is the same
      have hcomm : { s.addRequest i req with newRequests := rest } =
          { s with newRequests := rest }.addRequest i req := rfl
      rw [hcomm] at hsend
      generalize ({ s with newRequests := rest }.addRequest i req).performSend i r dialed = t at hsend
      dsimp only
      split
      · exact (hsend.shrink (fun ht => ht) (fun ht => hsend.free (getElem?_of_erase ht))).collect
      -- the entry is gone already: erasing it is undefined, but no request is lost by then
      · exact ⟨hsend.table, hsend.free, hsend.logged, hsend.ids, hsend.issued, hsend.accounts,
          fun hu => absurd hu (by simp)⟩

theorem Inv.checkKeepAlive (h : Inv s) (now : Nat) (r : Nat → SendResult) {l : List (Nat × Nat)}
    (hl : ∀ p ∈ l, p.2 < s.allocated) : Inv (s.checkKeepAlive now r l) := by
  induction l generalizing s with
  | nil => exact h
  | cons p l ih =>
      obtain ⟨sock, i⟩ := p
      have hi : i < s.allocated := hl (sock, i) List.mem_cons_self
      have hsent := (Connection.checkKeepAlive_kept now (r sock) (s.conn i)).1
      unfold BinClientA.checkKeepAlive
      split
      · rename_i c _ heq
        rw [heq] at hsent
        exact h.setConn hi hsent
      · rename_i c heq
        rw [heq] at hsent
        exact ih (h.setConn hi hsent) (fun p hp => hl p (List.mem_cons_of_mem _ hp))

theorem Inv.handleEvents (h : Inv s) (dialed : Option Dialed) (put : SendResult)
    (redialed : Option Dialed) (now : Nat) (keepalive : Nat → SendResult) :
    Inv (s.handleEvents dialed put redialed now keepalive) := by
  have hfirst : Inv (if s.connections.size < s.maxConnections then s.establishNewConnection dialed
      else (s, none)).1 := by
    split
    · exact h.establishNewConnection dialed
    · exact h
  unfold BinClientA.handleEvents
  generalize (if s.connections.size < s.maxConnections then s.establishNewConnection dialed
      else (s, none)) = first at hfirst
  obtain ⟨t, thrown⟩ := first
  dsimp only at hfirst ⊢
  split
  · exact hfirst
  · have hput := hfirst.collect.putRequestsToFreeConnections put redialed
    split
    · exact hput
    · refine hput.checkKeepAlive now keepalive fun p hp => ?_
      exact hput.table (Std.ExtTreeMap.mem_toList_iff_getElem?_eq_some.mp hp)

/-! ## Runs -/

theorem Inv.step {pb : Protobuf} {input : Input} (h : Inv s) (hstep : s.step pb input = some s') :
    Inv s' := by
  unfold BinClientA.step at hstep
  split at hstep
  · exact absurd hstep (by simp)
  · rename_i hu
    rw [Bool.not_eq_true] at hu
    cases input with
    | call c =>
        rw [← Option.some.inj hstep]
        exact h.call pb c
    | handleEvents dialed put redialed now keepalive =>
        rw [← Option.some.inj hstep]
        exact h.handleEvents dialed put redialed now keepalive
    | read sock junk rs redialed =>
        rw [← Option.some.inj hstep]
        exact h.onRead hu sock junk rs redialed
    | write sock r redialed =>
        rw [← Option.some.inj hstep]
        exact h.onWrite sock r redialed
    | error sock redialed =>
        rw [← Option.some.inj hstep]
        exact h.onError sock redialed

theorem Inv.reinitConnections (h : Inv s) (attempts : List (Option Dialed)) :
    Inv (s.reinitConnections attempts).1 := by
  induction attempts generalizing s with
  | nil => exact h
  | cons dialed attempts ih =>
      have hnext := h.establishNewConnection dialed
      unfold BinClientA.reinitConnections
      split
      · rename_i heq
        rw [heq] at hnext
        exact hnext
      · rename_i heq
        rw [heq] at hnext
        exact ih hnext

theorem Inv.new {attempts : List (Option Dialed)} (hnew : new attempts = some s) : Inv s := by
  unfold BinClientA.new at hnew
  have hinit : Inv ⟨fun _ => ⟨(Connection.new 0 0 .again).1, [], []⟩, 0, ∅, ∅, [], attempts.length, [], [],
      false⟩ :=
    ⟨fun ht => absurd ht (by simp), fun ht => absurd ht (by simp), fun f hf => absurd hf List.not_mem_nil,
      rfl, rfl, fun hi => absurd hi (Nat.not_lt_zero _), fun _ ht => absurd ht (by simp)⟩
  have hall := hinit.reinitConnections attempts
  split at hnew
  · exact absurd hnew (by simp)
  · rename_i t heq
    rw [heq] at hall
    split at hnew
    · exact absurd hnew (by simp)
    · exact Option.some.inj hnew ▸ hall

/-- The calls of `onFinished` for a request, counted connection by connection. -/
theorem sum_count_log {n : Nat} {log : List Finished} (hlog : ∀ f ∈ log, f.conn < n) (q : Request) :
    ∑ i ∈ Finset.range n, ((log.filter (·.conn = i)).map Finished.request).count q =
      (log.map Finished.request).count q := by
  induction log with
  | nil => simp
  | cons f log ih =>
      have hf : f.conn ∈ Finset.range n := Finset.mem_range.mpr (hlog f List.mem_cons_self)
      -- a call is counted under its own connection and nowhere else
      have hcons : ∀ i, (((f :: log).filter (·.conn = i)).map Finished.request).count q =
          ((log.filter (·.conn = i)).map Finished.request).count q +
            if i = f.conn then (if f.request = q then 1 else 0) else 0 := by
        intro i
        by_cases hi : f.conn = i
        · rw [List.filter_cons_of_pos (by simpa using hi), List.map_cons, List.count_cons, if_pos hi.symm]
          simp
        · rw [List.filter_cons_of_neg (by simpa using hi), if_neg (Ne.symm hi), Nat.add_zero]
      rw [Finset.sum_congr rfl (fun i _ => hcons i), Finset.sum_add_distrib,
        ih (fun g hg => hlog g (List.mem_cons_of_mem f hg)), Finset.sum_ite_eq', if_pos hf,
        List.map_cons, List.count_cons]
      simp

/-- Each request passed to `call` is a new one, or was added to one connection, once. -/
theorem Inv.count_added (h : Inv s) {q : Request} (hq : q ∈ s.issued) :
    s.newRequests.count q + ∑ i ∈ Finset.range s.allocated, (s.objects i).added.count q = 1 := by
  have hnodup : s.issued.Nodup := List.Nodup.of_map Request.id (by rw [h.ids]; exact List.nodup_range)
  have hcount := congrArg (Multiset.count q) h.issued
  rw [Multiset.count_add, Multiset.count_sum', Multiset.coe_count, Multiset.coe_count,
    List.count_eq_one_of_mem hnodup hq] at hcount
  simpa only [Multiset.coe_count] using hcount

/-- Each request passed to `call` is a new one, or one connection waits for it, or it is finished. -/
theorem Inv.count_placed (h : Inv s) {q : Request} (hq : q ∈ s.issued) :
    s.newRequests.count q + ∑ i ∈ Finset.range s.allocated, (s.conn i).sentRequests.count q +
      (s.finished.map Finished.request).count q = 1 := by
  -- what was added to a connection is with it or finished by it
  have hsplit : ∀ i ∈ Finset.range s.allocated, (s.objects i).added.count q =
      (s.conn i).sentRequests.count q + ((s.finishedOn i).map Finished.request).count q := by
    intro i hi
    rw [← (h.accounts (Finset.mem_range.mp hi)).split, List.count_append, Nat.add_comm]
    rfl
  have hadded := h.count_added hq
  rw [Finset.sum_congr rfl hsplit, Finset.sum_add_distrib] at hadded
  rw [← sum_count_log h.logged q]
  unfold finishedOn at hadded
  omega

/-- One connection, whose upgrade request is sent at once. -/
def oneAttempt : List (Option Dialed) := [some ⟨5, 0, .accepted 1000⟩]

theorem oneAttempt_connects : (new oneAttempt).isSome = true := by decide +kernel

end BinClientA

end BinClient
end Hiaux
