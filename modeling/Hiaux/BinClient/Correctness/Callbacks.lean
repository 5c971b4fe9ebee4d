import Hiaux.BinClient.Correctness.SendBuffer
import Hiaux.BinClient.Correctness.Tables

/-!
# `BinClient.Correctness.Callbacks` — which callbacks are run under the lock

A callback is run for a response, with no lock taken, or by the destructor of a connection, wherever the last
reference to it goes. Between handlers a connection in no table waits for no response (`Idle`), so a destructor
has callbacks to run only where a handler has taken a connection with requests out of the table. Of the
handlers that hold the lock, `onWrite` and `putRequestsToFreeConnections` do so, and each when its send fails
for good: `onLostConnection` then leaves the handler's own variable, which goes before its ticket, as the last
reference.
-/

namespace Hiaux
namespace BinClient

open Lib Strings Network Events

/-! ## What a destructor finishes -/

namespace BinClientA

variable {s t : BinClientA} {i : Nat}

/-- Destroying a connection that waits for nothing changes nothing. -/
theorem release_eq_self (h : s.referenced i = false → (s.conn i).sentRequests = []) : s.release i = s := by
  unfold release
  split
  · rfl
  · rename_i href
    have hsent := h (Bool.eq_false_of_not_eq_true href)
    have hconn : { s.conn i with sentRequests := [] } = s.conn i := by rw [← hsent]
    have hobj : Function.update s.objects i (s.objects i) = s.objects := Function.update_eq_self _ _
    rw [hconn, Connection.destroy, hsent, List.map_nil, List.append_nil, setConn, modify]
    exact congrArg (fun objects => { s with objects := objects }) hobj

theorem length_finished_release (i : Nat) (s : BinClientA) :
    s.finished.length ≤ (s.release i).finished.length := by
  unfold release
  split
  · exact Nat.le_refl _
  · exact List.length_append ▸ Nat.le_add_right _ _

theorem length_finished_foldl_release (l : List Nat) (s : BinClientA) :
    s.finished.length ≤ (l.foldl (fun s i => s.release i) s).finished.length := by
  induction l generalizing s with
  | nil => exact Nat.le_refl _
  | cons i l ih => exact Nat.le_trans (length_finished_release i s) (ih _)

theorem foldl_release_eq_self {l : List Nat}
    (h : ∀ i ∈ l, s.referenced i = false → (s.conn i).sentRequests = []) :
    l.foldl (fun s i => s.release i) s = s := by
  induction l with
  | nil => rfl
  | cons i l ih =>
      rw [List.foldl_cons, release_eq_self (h i (by simp))]
      exact ih fun j hj => h j (List.mem_cons_of_mem i hj)

/-- A connection that waits for responses and is destroyed finishes requests. -/
theorem lt_length_finished {l : List Nat} (hi : i ∈ l) (href : s.referenced i = false)
    (hsent : (s.conn i).sentRequests ≠ []) :
    s.finished.length < (l.foldl (fun s i => s.release i) s).finished.length := by
  induction l generalizing s with
  | nil => exact absurd hi (by simp)
  | cons j l ih =>
      rw [List.foldl_cons]
      by_cases hij : i = j
      · subst hij
        refine Nat.lt_of_lt_of_le ?_ (length_finished_foldl_release l _)
        have hpos := List.length_pos_iff.mpr hsent
        unfold release
        rw [href, if_neg Bool.false_ne_true]
        show _ < (s.finished ++ _).length
        rw [List.length_append, List.length_map, Connection.destroy]
        omega
      · have hkept : ((s.release j).conn i).sentRequests ≠ [] := by
          rw [conn_release, if_neg fun h => hij h.1]
          exact hsent
        refine Nat.lt_of_le_of_lt (length_finished_release j s) (ih ?_ ?_ hkept)
        · exact (List.mem_cons.mp hi).resolve_left hij
        · rw [referenced_release]
          exact href

@[simp] theorem conn_setConn_self (i : Nat) (c : Connection) (s : BinClientA) :
    (s.setConn i c).conn i = c := by
  rw [conn, setConn, objects_modify_self]

@[simp] theorem conn_addRequest_self (i : Nat) (req : Request) (s : BinClientA) :
    (s.addRequest i req).conn i = (s.conn i).addRequest req := by
  rw [conn, addRequest, objects_modify_self]
  rfl

/-- A connection that is in no table waits for no response. -/
def Idle (s : BinClientA) : Prop :=
  ∀ i : Nat, i < s.allocated → (∀ sock : Nat, s.connections[sock]? ≠ some i) → (s.conn i).sentRequests = []

/-- A change that leaves the table and the connections outside of it alone. -/
theorem Idle.same (h : Idle s) (halloc : t.allocated = s.allocated) (htable : t.connections = s.connections)
    (hsent : ∀ j : Nat, (∀ sock : Nat, s.connections[sock]? ≠ some j) →
      (t.conn j).sentRequests = (s.conn j).sentRequests) : Idle t := by
  intro j hj hout
  rw [halloc] at hj
  rw [htable] at hout
  rw [hsent j hout]
  exact h j hj hout

/-- A change of one connection of the table. -/
theorem Idle.change (h : Idle s) {sock : Nat} (hi : s.connections[sock]? = some i) {o : ConnObject}
    (halloc : t.allocated = s.allocated) (htable : t.connections = s.connections)
    (hobj : t.objects = Function.update s.objects i o) : Idle t := by
  refine h.same halloc htable fun j hout => ?_
  have hne : j ≠ i := fun heq => hout sock (heq ▸ hi)
  rw [conn, hobj, Function.update_of_ne hne]
  rfl

end BinClientA

namespace WatchedClient

open BinClientA (Idle)

variable {w v : WatchedClient} {i : Nat}

/-- With the tables consistent, the connections that are destroyed are those in no table. -/
theorem Consistent.referenced_iff (h : Consistent w) :
    w.client.referenced i = false ↔ ∀ sock : Nat, w.client.connections[sock]? ≠ some i := by
  constructor
  · exact fun href _ => BinClientA.not_in_table href
  · intro hout
    refine Bool.eq_false_of_not_eq_true fun href => ?_
    rcases Bool.or_eq_true_iff.mp href with hany | hany
    · obtain ⟨⟨sock, j⟩, hmem, hj⟩ := List.any_eq_true.mp hany
      obtain rfl := of_decide_eq_true hj
      exact hout sock (Std.ExtTreeMap.mem_toList_iff_getElem?_eq_some.mp hmem)
    · obtain ⟨⟨sock, j⟩, hmem, hj⟩ := List.any_eq_true.mp hany
      obtain rfl := of_decide_eq_true hj
      exact hout sock (h.free (Std.ExtTreeMap.mem_toList_iff_getElem?_eq_some.mp hmem))

/-- Where every connection outside of the table waits for nothing, the end of a handler destroys none that
    has callbacks to run. -/
theorem Consistent.finishing_collect (h : Consistent w) (hidle : Idle w.client) :
    w.finishing .collect = w := by
  have hself : w.client.collect = w.client :=
    BinClientA.foldl_release_eq_self fun i hi href =>
      hidle i (List.mem_range.mp hi) (h.referenced_iff.mp href)
  have hnone : w.callbacksOf .collect = [] := by
    rw [callbacksOf, hself, List.drop_length, List.map_nil]
  rw [finishing, hself, hnone, List.append_nil]

/-- **The end of a handler runs callbacks** exactly when a connection that waits for responses has left the
    table. -/
theorem Consistent.callbacksOf_collect (h : Consistent w) :
    w.callbacksOf .collect = [] ↔ Idle w.client := by
  constructor
  · intro hnone i hi hout
    by_contra hsent
    have hlt := BinClientA.lt_length_finished (List.mem_range.mpr hi) (h.referenced_iff.mpr hout) hsent
    rw [callbacksOf, List.map_eq_nil_iff, List.drop_eq_nil_iff] at hnone
    exact absurd hlt (Nat.not_lt.mpr hnone)
  · intro hidle
    have hsame := congrArg callbacks (h.finishing_collect hidle)
    exact List.append_right_eq_self.mp hsame

theorem Consistent.idle_collect (h : Consistent w) : Idle (w.finishing .collect).client := by
  have hkept := BinClientA.kept_foldl_release (List.range w.client.allocated) w.client
  intro i hi hout
  have hi' : i < w.client.allocated := hkept.allocated ▸ hi
  exact BinClientA.conn_collect hi' (h.referenced_iff.mpr fun sock ht => hout sock (hkept.connections ▸ ht))

/-! ## What runs no callback -/

/-- Nothing has been run, and the lock is as it was. -/
structure SameCalls (w v : WatchedClient) : Prop where
  callbacks : v.callbacks = w.callbacks
  locked : v.locked = w.locked
  missing : v.missing = w.missing
  undefined : v.client.undefined = w.client.undefined

theorem SameCalls.trans {u : WatchedClient} (h : SameCalls w v) (h' : SameCalls v u) : SameCalls w u :=
  ⟨h'.callbacks.trans h.callbacks, h'.locked.trans h.locked, h'.missing.trans h.missing,
    h'.undefined.trans h.undefined⟩

theorem sameCalls_establishNewConnection (w : WatchedClient) (dialed : Option Dialed) :
    SameCalls w (w.establishNewConnection dialed).1 := by
  rcases w.establishNewConnection_cases dialed with heq | ⟨d, c, -, -, -, heq⟩
  · rw [heq]
    exact ⟨rfl, rfl, rfl, rfl⟩
  · rw [heq]
    exact ⟨rfl, rfl, rfl, rfl⟩

theorem sameCalls_onLostConnection (w : WatchedClient) (i : Nat) (dialed : Option Dialed) :
    SameCalls w (w.onLostConnection i dialed) := by
  have hremoved : SameCalls w (w.removeConnection i) := ⟨rfl, rfl, rfl, rfl⟩
  exact hremoved.trans (sameCalls_establishNewConnection _ dialed)

theorem sameCalls_performSend (w : WatchedClient) (i : Nat) (r : SendResult) (dialed : Option Dialed) :
    SameCalls w (w.performSend i r dialed) := by
  unfold performSend
  rcases (w.client.conn i).performSend r with ⟨c, _ | _ | _ | _⟩
  · exact ⟨rfl, rfl, rfl, rfl⟩
  · have hset : SameCalls w (w.on (·.setConn i c)) := ⟨rfl, rfl, rfl, rfl⟩
    exact hset.trans (sameCalls_onLostConnection _ i dialed)
  · exact ⟨rfl, rfl, rfl, rfl⟩
  · exact ⟨rfl, rfl, rfl, rfl⟩

/-! ## Connections that leave the table -/

/-- A connection that is made waits for nothing, entered or not. -/
theorem idle_establishNewConnection (h : Idle w.client) (dialed : Option Dialed) :
    Idle (w.establishNewConnection dialed).1.client := by
  rcases w.establishNewConnection_cases dialed with heq | ⟨d, c, -, -, hsent, heq⟩
  · rw [heq]
    exact h
  · rw [heq]
    intro j hj hout
    show (Function.update w.client.objects w.client.allocated ⟨c, [], []⟩ j).conn.sentRequests = []
    by_cases hnew : j = w.client.allocated
    · rw [hnew, Function.update_self]
      exact hsent
    · rw [Function.update_of_ne hnew]
      refine h j (Nat.lt_of_le_of_ne (Nat.le_of_lt_succ hj) hnew) fun sock ht => hout sock ?_
      exact getElem?_insertIfNew_of_some _ _ ht

/-- A connection of the table is lost: what it still waits for is all that is left to finish. -/
theorem Consistent.idle_onLostConnection (h : Consistent w) (hidle : Idle w.client) {sock : Nat}
    (hi : w.client.connections[sock]? = some i) (dialed : Option Dialed) :
    Idle (w.onLostConnection i dialed).client ↔ (w.client.conn i).sentRequests = [] := by
  have hlt := h.allocated hi
  constructor
  · intro hafter
    -- the connection is in the table no more
    have hout : ∀ sock' : Nat, (w.removeConnection i).client.connections[sock']? ≠ some i := by
      intro sock' ht
      have hsock := h.own (getElem?_of_erase ht)
      have ht' : (w.client.connections.erase (w.client.conn i).sock)[sock']? = some i := ht
      rw [hsock, Std.ExtTreeMap.getElem?_erase_self] at ht'
      exact absurd ht' (by simp)
    rcases (w.removeConnection i).establishNewConnection_cases dialed with heq | ⟨d, c, -, -, -, heq⟩
    · have hsame : w.onLostConnection i dialed = w.removeConnection i := heq
      rw [hsame] at hafter
      exact hafter i hlt hout
    · have hnew : w.onLostConnection i dialed = (w.removeConnection i).withConnection d.sock c :=
        congrArg Prod.fst heq
      have hne : i ≠ w.client.allocated := Nat.ne_of_lt hlt
      rw [hnew] at hafter
      have hsent := hafter i (Nat.lt_succ_of_lt hlt) fun sock' ht =>
        (getElem?_insertIfNew ht).elim (fun heq => hne heq.2) (hout sock')
      have hobj : (((w.removeConnection i).withConnection d.sock c).client.conn i) = w.client.conn i :=
        congrArg ConnObject.conn (Function.update_of_ne hne _ _)
      rw [hobj] at hsent
      exact hsent
  · intro hsent
    refine idle_establishNewConnection ?_ dialed
    intro j hj hout
    by_cases hji : j = i
    · rw [hji]
      exact hsent
    · refine hidle j hj fun sock' ht => hout sock' ?_
      have hne : (w.client.conn i).sock ≠ sock' := by
        rintro rfl
        rw [h.own hi, hi] at ht
        exact hji (Option.some.inj ht).symm
      show (w.client.connections.erase (w.client.conn i).sock)[sock']? = some j
      rw [Std.ExtTreeMap.getElem?_erase, if_neg fun heq => hne (Std.LawfulEqCmp.eq_of_compare heq)]
      exact ht

/-- **A send takes a connection with requests out of the table** exactly when it fails for good and there
    are both something to send and requests to answer. -/
theorem Consistent.idle_performSend (h : Consistent w) (hidle : Idle w.client) {sock : Nat}
    (hi : w.client.connections[sock]? = some i) (r : SendResult) (dialed : Option Dialed) :
    Idle (w.performSend i r dialed).client ↔
      ¬ (r = .fatal ∧ (w.client.conn i).sendBuffer.length ≠ 0 ∧ (w.client.conn i).sentRequests ≠ []) := by
  have hthrown := Connection.performSend_thrown r (w.client.conn i)
  have hsent := (Connection.performSend_kept r (w.client.conn i)).1
  have hsock := Connection.sock_performSend r (w.client.conn i)
  unfold WatchedClient.performSend
  generalize (w.client.conn i).performSend r = out at hthrown hsent hsock ⊢
  obtain ⟨c, thrown⟩ := out
  have hset : Idle (w.on (·.setConn i c)).client := hidle.change hi rfl rfl rfl
  have hself : ((w.on (·.setConn i c)).client.conn i).sentRequests = (w.client.conn i).sentRequests := by
    rw [on, BinClientA.conn_setConn_self]
    exact hsent
  by_cases hempty : (w.client.conn i).sendBuffer.length = 0
  · rw [if_pos hempty] at hthrown
    obtain rfl : thrown = none := hthrown
    exact iff_of_true hset fun hlost => hlost.2.1 hempty
  · rw [if_neg hempty] at hthrown
    cases r with
    | fatal =>
        obtain rfl : thrown = some .lostConnectionEx := hthrown
        have hlost := (h.setConn hsock).idle_onLostConnection hset hi dialed
        rw [hself] at hlost
        refine hlost.trans ?_
        simp [hempty]
    | again =>
        obtain rfl : thrown = some .outOfRange := hthrown
        exact iff_of_true hset fun hlost => absurd hlost.1 (by simp)
    | accepted n =>
        obtain rfl : thrown = none := hthrown
        exact iff_of_true hset fun hlost => absurd hlost.1 (by simp)

/-! ## The free connections and a send -/

theorem free_onLostConnection (w : WatchedClient) (i : Nat) (dialed : Option Dialed) :
    (w.onLostConnection i dialed).client.freeConnections =
      w.client.freeConnections.erase (w.client.conn i).sock := by
  unfold onLostConnection
  rcases (w.removeConnection i).establishNewConnection_cases dialed with heq | ⟨d, c, -, -, -, heq⟩
  · rw [heq]
    rfl
  · rw [heq]
    rfl

/-- A send that does not fail for good leaves the free connections as they are. -/
theorem free_performSend {r : SendResult} (hr : r ≠ .fatal) (w : WatchedClient) (i : Nat)
    (dialed : Option Dialed) : (w.performSend i r dialed).client.freeConnections = w.client.freeConnections := by
  have hthrown := Connection.performSend_thrown r (w.client.conn i)
  unfold performSend
  generalize (w.client.conn i).performSend r = out at hthrown ⊢
  obtain ⟨c, thrown⟩ := out
  have hkept : thrown ≠ some .lostConnectionEx := by
    rintro rfl
    by_cases hempty : (w.client.conn i).sendBuffer.length = 0
    · rw [if_pos hempty] at hthrown
      exact absurd hthrown (by simp)
    · rw [if_neg hempty] at hthrown
      cases r with
      | fatal => exact hr rfl
      | again => exact absurd hthrown (by simp)
      | accepted n => exact absurd hthrown (by simp)
  rcases thrown with _ | _ | _ | _
  · rfl
  · exact absurd rfl hkept
  · rfl
  · rfl

/-- A send that fails for good takes the connection from the free ones. -/
theorem Consistent.free_performSend_fatal (h : Consistent w) {sock : Nat}
    (hi : w.client.connections[sock]? = some i) (hbuf : (w.client.conn i).sendBuffer.length ≠ 0)
    (dialed : Option Dialed) :
    (w.performSend i .fatal dialed).client.freeConnections.contains sock = false := by
  have hlost : w.performSend i .fatal dialed =
      (w.on (·.setConn i (w.client.conn i))).onLostConnection i dialed := by
    unfold WatchedClient.performSend Connection.performSend
    rw [if_neg hbuf]
  have hsock : ((w.on (·.setConn i (w.client.conn i))).client.conn i).sock = sock := by
    rw [on, BinClientA.conn_setConn_self]
    exact h.own hi
  rw [hlost, free_onLostConnection, hsock, Std.ExtTreeMap.contains_erase]
  simp

/-! ## A request is handed over -/

/-- The client with its first new request added to a connection. -/
def given (i : Nat) (req : Request) (rest : List Request) (w : WatchedClient) : WatchedClient :=
  w.on fun s => { s with newRequests := rest }.addRequest i req

@[simp] theorem conn_given (i : Nat) (req : Request) (rest : List Request) (w : WatchedClient) :
    (w.given i req rest).client.conn i = (w.client.conn i).addRequest req :=
  BinClientA.conn_addRequest_self i req _

theorem Consistent.given (h : Consistent w) (i : Nat) (req : Request) (rest : List Request) :
    Consistent (w.given i req rest) := h.same rfl (sock_update rfl rfl) rfl rfl rfl rfl

theorem sameCalls_given (i : Nat) (req : Request) (rest : List Request) (w : WatchedClient) :
    SameCalls w (w.given i req rest) := ⟨rfl, rfl, rfl, rfl⟩

theorem idle_given (h : Idle w.client) {sock : Nat} (hi : w.client.connections[sock]? = some i) (req : Request)
    (rest : List Request) : Idle (w.given i req rest).client := h.change hi rfl rfl rfl

/-- The connection has something to send now, and a request to answer. -/
theorem given_awaits (i : Nat) (req : Request) (rest : List Request) (w : WatchedClient) :
    ((w.given i req rest).client.conn i).sendBuffer.length ≠ 0 ∧
      ((w.given i req rest).client.conn i).sentRequests ≠ [] := by
  rw [conn_given]
  constructor
  · simp [Connection.addRequest, frame]
  · simp [Connection.addRequest]

/-- **The send of a request just handed over** takes the connection out of the table exactly when it fails
    for good. -/
theorem Consistent.idle_given_performSend (h : Consistent w) (hidle : Idle w.client) {sock : Nat}
    (hi : w.client.connections[sock]? = some i) (req : Request) (rest : List Request) (r : SendResult)
    (dialed : Option Dialed) :
    Idle ((w.given i req rest).performSend i r dialed).client ↔ r ≠ .fatal := by
  have hawaits := given_awaits i req rest w
  rw [(h.given i req rest).idle_performSend (idle_given hidle hi req rest) hi]
  exact not_congr (and_iff_left hawaits)

/-! ## Requests for free connections -/

/-- A free connection is active, and there is a new request for it. -/
def PutFound (s : BinClientA) : Prop :=
  s.newRequests ≠ [] ∧ ∃ sock i : Nat, s.freeConnections[sock]? = some i ∧ (s.conn i).state = .active

instance (s : BinClientA) : Decidable (PutFound s) :=
  decidable_of_iff
    (s.newRequests ≠ [] ∧ ∃ p ∈ s.freeConnections.toList, (s.conn p.2).state = .active) <| by
    refine and_congr_right fun _ => ⟨?_, ?_⟩
    · rintro ⟨⟨sock, i⟩, hmem, hactive⟩
      exact ⟨sock, i, Std.ExtTreeMap.mem_toList_iff_getElem?_eq_some.mp hmem, hactive⟩
    · rintro ⟨sock, i, hfree, hactive⟩
      exact ⟨(sock, i), Std.ExtTreeMap.mem_toList_iff_getElem?_eq_some.mpr hfree, hactive⟩

/-- Nothing is done where there is no new request, or no free connection is active. -/
theorem putRequestsLocked_notFound (hfound : ¬ PutFound w.client) (r : SendResult) (dialed : Option Dialed) :
    w.putRequestsLocked r dialed = w := by
  unfold putRequestsLocked
  cases hnew : w.client.newRequests with
  | nil => rfl
  | cons req rest =>
      have hnone : w.client.freeConnections.toList.find? (fun p => (w.client.conn p.2).state = .active) =
          none := by
        refine List.find?_eq_none.mpr fun p hp hactive => hfound ⟨by simp [hnew], p.1, p.2, ?_, ?_⟩
        · exact Std.ExtTreeMap.mem_toList_iff_getElem?_eq_some.mp hp
        · exact of_decide_eq_true hactive
      dsimp only
      rw [hnone]

/-- Otherwise the first new request is handed over. -/
theorem putRequestsLocked_found (hfound : PutFound w.client) (r : SendResult) (dialed : Option Dialed) :
    ∃ req rest, ∃ sock i : Nat, w.client.freeConnections[sock]? = some i ∧
      w.putRequestsLocked r dialed =
        if ((w.given i req rest).performSend i r dialed).client.freeConnections.contains sock then
          (((w.given i req rest).performSend i r dialed).on fun s =>
            { s with freeConnections := s.freeConnections.erase sock }).finishing .collect
        else
          { ((w.given i req rest).performSend i r dialed).on fun s => { s with undefined := true } with
            callbacks := ((w.given i req rest).performSend i r dialed).callbacks ++
              ((w.given i req rest).performSend i r dialed).callbacksOf .collect
            missing := true } := by
  obtain ⟨hsome, sock, i, hfree, hactive⟩ := hfound
  obtain ⟨req, rest, hnew⟩ := List.exists_cons_of_ne_nil hsome
  cases hfind : w.client.freeConnections.toList.find? (fun p => (w.client.conn p.2).state = .active) with
  | none =>
      have hno := List.find?_eq_none.mp hfind _ (Std.ExtTreeMap.mem_toList_iff_getElem?_eq_some.mpr hfree)
      exact absurd (decide_eq_true hactive) hno
  | some p =>
      refine ⟨req, rest, p.1, p.2, ?_, ?_⟩
      · exact Std.ExtTreeMap.mem_toList_iff_getElem?_eq_some.mp (List.mem_of_find?_eq_some hfind)
      · unfold putRequestsLocked
        rw [hnew]
        dsimp only
        rw [hfind]
        rfl

/-- **A request is handed over and its send fails for good**: the connection is destroyed under the lock with
    the request, and its entry among the free connections is gone before it is erased. -/
theorem Consistent.putRequestsLocked_lost (h : Consistent w) (hidle : Idle w.client)
    (hlocked : w.locked = true) (hfound : PutFound w.client) (dialed : Option Dialed) :
    (w.putRequestsLocked .fatal dialed).missing = true ∧
      (w.putRequestsLocked .fatal dialed).client.undefined = true ∧
      ∃ c ∈ (w.putRequestsLocked .fatal dialed).callbacks, c.locked = true := by
  obtain ⟨req, rest, sock, i, hfree, heq⟩ := putRequestsLocked_found hfound .fatal dialed
  have hi := h.free hfree
  have hgiven := h.given i req rest
  have hgone := hgiven.free_performSend_fatal hi (given_awaits i req rest w).1 dialed
  rw [heq, hgone, if_neg Bool.false_ne_true]
  refine ⟨rfl, rfl, ?_⟩
  have hleft := h.idle_given_performSend hidle hi req rest .fatal dialed
  have hruns := mt (hgiven.performSend hi .fatal dialed).callbacksOf_collect.mp fun hid => hleft.mp hid rfl
  obtain ⟨c, hc⟩ := List.exists_mem_of_ne_nil _ hruns
  refine ⟨c, List.mem_append_right _ hc, ?_⟩
  obtain ⟨call, -, rfl⟩ := List.mem_map.mp hc
  exact ((sameCalls_given i req rest w).trans (sameCalls_performSend _ i .fatal dialed)).locked.trans hlocked

/-- Otherwise `putRequestsToFreeConnections` runs nothing. -/
theorem Consistent.putRequestsLocked_kept (h : Consistent w) (hidle : Idle w.client) {r : SendResult}
    (hkept : ¬ (r = .fatal ∧ PutFound w.client)) (dialed : Option Dialed) :
    SameCalls w (w.putRequestsLocked r dialed) ∧ Idle (w.putRequestsLocked r dialed).client := by
  by_cases hfound : PutFound w.client
  · have hr : r ≠ .fatal := fun hr => hkept ⟨hr, hfound⟩
    obtain ⟨req, rest, sock, i, hfree, heq⟩ := putRequestsLocked_found hfound r dialed
    have hi := h.free hfree
    have hsame := (sameCalls_given i req rest w).trans (sameCalls_performSend _ i r dialed)
    have hsent := (h.given i req rest).performSend hi r dialed
    have hid := (h.idle_given_performSend hidle hi req rest r dialed).mpr hr
    have hcontains :
        ((w.given i req rest).performSend i r dialed).client.freeConnections.contains sock = true := by
      have hstill : (w.given i req rest).client.freeConnections[sock]? = some i := hfree
      rw [free_performSend hr, ← Std.ExtTreeMap.mem_iff_contains, Std.ExtTreeMap.mem_iff_isSome_getElem?,
        hstill]
      rfl
    have herased : Consistent (((w.given i req rest).performSend i r dialed).on fun s =>
        { s with freeConnections := s.freeConnections.erase sock }) :=
      ⟨hsent.allocated, hsent.own, fun hj => hsent.free (getElem?_of_erase hj), hsent.watched,
        hsent.bound⟩
    rw [heq, if_pos hcontains, herased.finishing_collect hid]
    exact ⟨⟨hsame.callbacks, hsame.locked, hsame.missing, hsame.undefined⟩, hid⟩
  · rw [putRequestsLocked_notFound hfound]
    exact ⟨⟨rfl, rfl, rfl, rfl⟩, hidle⟩

/-! ## The start of `handleEvents` -/

/-- No upgrade request of a new connection throws, so `handleEvents` comes to the requests. -/
def PutReached (s : BinClientA) (dialed : Option Dialed) : Prop :=
  s.connections.size < s.maxConnections → ∀ d, dialed = some d → ∃ n, d.sent = .accepted n

instance (s : BinClientA) : ∀ dialed : Option Dialed, Decidable (PutReached s dialed)
  | none => isTrue fun _ d hd => absurd hd (by simp)
  | some ⟨_, _, .accepted n⟩ => isTrue fun _ _ hd => ⟨n, Option.some.inj hd ▸ rfl⟩
  | some ⟨_, _, .again⟩ => decidable_of_iff (¬ s.connections.size < s.maxConnections) (by simp [PutReached])
  | some ⟨_, _, .fatal⟩ => decidable_of_iff (¬ s.connections.size < s.maxConnections) (by simp [PutReached])

/-- `handleEvents` hands a request to a free connection, and the send fails for good. -/
def PutLost (s : BinClientA) (dialed : Option Dialed) (put : SendResult) : Prop :=
  put = .fatal ∧ PutReached s dialed ∧ PutFound s

instance (s : BinClientA) (dialed : Option Dialed) (put : SendResult) : Decidable (PutLost s dialed put) := by
  unfold PutLost
  infer_instance

theorem establishNewConnection_returns (w : WatchedClient) (dialed : Option Dialed) :
    (w.establishNewConnection dialed).2 = none ↔ ∀ d, dialed = some d → ∃ n, d.sent = .accepted n := by
  cases dialed with
  | none => exact iff_of_true rfl fun d hd => absurd hd (by simp)
  | some d =>
      have hthrown : (Connection.new d.sock d.now d.sent).2 = _ :=
        (Connection.performSend_thrown _ _).trans (if_neg (show ¬ upgradeRequest.length = 0 by decide +kernel))
      have hsame : (w.establishNewConnection (some d)).2 = (Connection.new d.sock d.now d.sent).2 := by
        unfold establishNewConnection BinClientA.establishNewConnection
        dsimp only
        rcases Connection.new d.sock d.now d.sent with ⟨c, _ | e⟩
        · rfl
        · rfl
      rw [hsame, hthrown]
      cases hsent : d.sent with
      | fatal => simp [hsent]
      | again => simp [hsent]
      | accepted n => simp [hsent]

/-- The client after the attempt to connect that `handleEvents` makes. -/
def attempted (dialed : Option Dialed) (w : WatchedClient) : WatchedClient × Option ConnEx :=
  if w.client.connections.size < w.client.maxConnections then w.establishNewConnection dialed else (w, none)

theorem attempted_returns (w : WatchedClient) (dialed : Option Dialed) :
    (w.attempted dialed).2 = none ↔ PutReached w.client dialed := by
  unfold attempted PutReached
  by_cases hroom : w.client.connections.size < w.client.maxConnections
  · rw [if_pos hroom, establishNewConnection_returns]
    exact ⟨fun h _ => h, fun h => h hroom⟩
  · rw [if_neg hroom]
    exact iff_of_true rfl fun h => absurd h hroom

/-- The attempt runs nothing, and finds no request and no free connection. -/
theorem Consistent.attempted (h : Consistent w) (hidle : Idle w.client) (dialed : Option Dialed) :
    Consistent (w.attempted dialed).1 ∧ Idle (w.attempted dialed).1.client ∧ SameCalls w (w.attempted dialed).1 ∧
      (PutFound (w.attempted dialed).1.client ↔ PutFound w.client) := by
  unfold WatchedClient.attempted
  by_cases hroom : w.client.connections.size < w.client.maxConnections
  · rw [if_pos hroom]
    refine ⟨h.establishNewConnection hroom dialed, idle_establishNewConnection hidle dialed,
      sameCalls_establishNewConnection w dialed, ?_⟩
    rcases w.establishNewConnection_cases dialed with heq | ⟨d, c, -, -, -, heq⟩
    · rw [heq]
    · rw [heq]
      refine and_congr_right fun _ => exists_congr fun sock => exists_congr fun i => ?_
      refine and_congr_right fun hfree => ?_
      have hne : i ≠ w.client.allocated := Nat.ne_of_lt (h.allocated (h.free hfree))
      have hobj : (w.withConnection d.sock c).client.conn i = w.client.conn i :=
        congrArg ConnObject.conn (Function.update_of_ne hne _ _)
      rw [hobj]
  · rw [if_neg hroom]
    exact ⟨h, hidle, ⟨rfl, rfl, rfl, rfl⟩, Iff.rfl⟩

theorem handleEvents_thrown {dialed : Option Dialed} (hthrown : (w.attempted dialed).2 ≠ none)
    (put : SendResult) (redialed : Option Dialed) (now : Nat) (keepalive : Nat → SendResult) :
    w.handleEvents dialed put redialed now keepalive = (w.attempted dialed).1 := by
  unfold handleEvents
  show (if (w.attempted dialed).2.isSome then _ else _) = _
  rw [if_pos (Option.isSome_iff_ne_none.mpr hthrown)]
  rfl

/-- Behind an attempt that returns come the requests, and the keep-alives if these come to their end. -/
theorem handleEvents_returns {dialed : Option Dialed} (h : Consistent (w.attempted dialed).1)
    (hidle : Idle (w.attempted dialed).1.client) (hreturns : (w.attempted dialed).2 = none)
    (put : SendResult) (redialed : Option Dialed) (now : Nat) (keepalive : Nat → SendResult) :
    w.handleEvents dialed put redialed now keepalive =
      if ((w.attempted dialed).1.putRequestsToFreeConnections put redialed).client.undefined then
        (w.attempted dialed).1.putRequestsToFreeConnections put redialed
      else ((w.attempted dialed).1.putRequestsToFreeConnections put redialed).on
        (fun s => s.checkKeepAlive now keepalive s.connections.toList) := by
  have hcollect := h.finishing_collect hidle
  unfold handleEvents
  show (if (w.attempted dialed).2.isSome then _ else
    if (((w.attempted dialed).1.finishing .collect).putRequestsToFreeConnections put redialed).client.undefined
      then _ else _) = _
  rw [hreturns, if_neg (by simp)]
  show (if (((w.attempted dialed).1.finishing .collect).putRequestsToFreeConnections put
      redialed).client.undefined then
        ((w.attempted dialed).1.finishing .collect).putRequestsToFreeConnections put redialed
      else (((w.attempted dialed).1.finishing .collect).putRequestsToFreeConnections put redialed).on _) = _
  rw [hcollect]

/-- A keep-alive concerns no request. -/
theorem idle_checkKeepAlive (now : Nat) (keepalive : Nat → SendResult) (l : List (Nat × Nat))
    {s : BinClientA} (h : Idle s) :
    Idle (s.checkKeepAlive now keepalive l) ∧ (s.checkKeepAlive now keepalive l).undefined = s.undefined := by
  induction l generalizing s with
  | nil => exact ⟨h, rfl⟩
  | cons p l ih =>
      obtain ⟨sock, i⟩ := p
      have hsent := (Connection.checkKeepAlive_kept now (keepalive sock) (s.conn i)).1
      unfold BinClientA.checkKeepAlive
      generalize (s.conn i).checkKeepAlive now (keepalive sock) = out at hsent ⊢
      have hset : Idle (s.setConn i out.1) := by
        refine h.same rfl rfl fun j _ => ?_
        by_cases hji : j = i
        · rw [hji, BinClientA.conn_setConn_self, hsent]
        · rw [BinClientA.conn, BinClientA.setConn, BinClientA.objects_modify_of_ne _ hji]
          rfl
      rcases out with ⟨c, _ | e⟩
      · exact ih hset
      · exact ⟨hset, rfl⟩

/-- **What `handleEvents` runs** before it waits for events, where a request it hands over is lost. -/
theorem Consistent.handleEvents_lost (h : Consistent w) (hidle : Idle w.client) {dialed : Option Dialed}
    {put : SendResult} (hlost : PutLost w.client dialed put) (redialed : Option Dialed) (now : Nat)
    (keepalive : Nat → SendResult) :
    (w.handleEvents dialed put redialed now keepalive).missing = true ∧
      (w.handleEvents dialed put redialed now keepalive).client.undefined = true ∧
      ∃ c ∈ (w.handleEvents dialed put redialed now keepalive).callbacks, c.locked = true := by
  obtain ⟨rfl, hreached, hfound⟩ := hlost
  obtain ⟨hcons, hid, -, hfound'⟩ := h.attempted hidle dialed
  have hlock : Consistent (w.attempted dialed).1.lock := hcons.same rfl (fun _ => rfl) rfl rfl rfl rfl
  obtain ⟨hmissing, hundef, c, hc, hlocked⟩ :=
    hlock.putRequestsLocked_lost hid rfl (hfound'.mpr hfound) redialed
  rw [handleEvents_returns hcons hid ((attempted_returns w dialed).mpr hreached)]
  have hundef' : ((w.attempted dialed).1.putRequestsToFreeConnections .fatal redialed).client.undefined = true :=
    hundef
  rw [if_pos hundef']
  exact ⟨hmissing, hundef, c, hc, hlocked⟩

/-- Otherwise it runs nothing. -/
theorem Consistent.handleEvents_kept (h : Consistent w) (hidle : Idle w.client) (hunlocked : w.locked = false)
    {dialed : Option Dialed} {put : SendResult} (hkept : ¬ PutLost w.client dialed put)
    (redialed : Option Dialed) (now : Nat) (keepalive : Nat → SendResult) :
    SameCalls w (w.handleEvents dialed put redialed now keepalive) ∧
      Idle (w.handleEvents dialed put redialed now keepalive).client := by
  obtain ⟨hcons, hid, hsame, hfound⟩ := h.attempted hidle dialed
  by_cases hreached : PutReached w.client dialed
  · have hlock : Consistent (w.attempted dialed).1.lock := hcons.same rfl (fun _ => rfl) rfl rfl rfl rfl
    have hno : ¬ (put = .fatal ∧ PutFound (w.attempted dialed).1.client) :=
      fun hlost => hkept ⟨hlost.1, hreached, hfound.mp hlost.2⟩
    obtain ⟨hput, hidput⟩ := hlock.putRequestsLocked_kept hid hno redialed
    -- with the ticket gone
    have hreleased : SameCalls w ((w.attempted dialed).1.putRequestsToFreeConnections put redialed) :=
      ⟨hput.callbacks.trans hsame.callbacks, hunlocked.symm, hput.missing.trans hsame.missing,
        hput.undefined.trans hsame.undefined⟩
    rw [handleEvents_returns hcons hid ((attempted_returns w dialed).mpr hreached)]
    split
    · exact ⟨hreleased, hidput⟩
    · have hkeep := idle_checkKeepAlive now keepalive
        ((w.attempted dialed).1.putRequestsToFreeConnections put redialed).client.connections.toList hidput
      exact ⟨⟨hreleased.callbacks, hreleased.locked, hreleased.missing, hkeep.2.trans hreleased.undefined⟩,
        hkeep.1⟩
  · rw [handleEvents_thrown (mt (attempted_returns w dialed).mp hreached)]
    exact ⟨hsame, hid⟩

/-! ## Between handlers -/

/-- What holds between two handlers. -/
structure Between (w : WatchedClient) : Prop where
  consistent : Consistent w
  unlocked : w.locked = false
  idle : w.client.undefined = false → Idle w.client

theorem locked_performRecv (w : WatchedClient) (i : Nat) (junk : Junk) (rs : List RecvResult)
    (dialed : Option Dialed) : (w.performRecv i junk rs dialed).locked = w.locked := by
  unfold performRecv
  dsimp only
  split
  · rfl
  · rcases ((w.client.conn i).performRecv junk rs).thrown with _ | _ | _ | _
    · rfl
    · exact (sameCalls_onLostConnection _ i dialed).locked
    · rfl
    · exact (sameCalls_onLostConnection _ i dialed).locked

theorem Between.onRead (h : Between w) (sock : Nat) (junk : Junk) (rs : List RecvResult)
    (dialed : Option Dialed) : Between (w.onRead sock junk rs dialed) := by
  have hcons := h.consistent.onRead sock junk rs dialed
  unfold WatchedClient.onRead at hcons ⊢
  cases hi : w.client.connections[sock]? with
  | none => exact h
  | some i =>
      have hrecv := h.consistent.performRecv hi junk rs dialed
      have hlocked := (locked_performRecv w i junk rs dialed).trans h.unlocked
      rw [hi] at hcons
      dsimp only at hcons ⊢
      split
      · rename_i hundef
        exact ⟨hrecv, hlocked, fun hu => absurd (hu.symm.trans hundef) (by simp)⟩
      · exact ⟨hrecv.collect, hlocked, fun _ => hrecv.idle_collect⟩

theorem Between.onError (h : Between w) (sock : Nat) (dialed : Option Dialed) :
    Between (w.onError sock dialed) := by
  unfold WatchedClient.onError
  cases hi : w.client.connections[sock]? with
  | none => exact h
  | some i =>
      have hlost := h.consistent.onLostConnection hi dialed
      exact ⟨hlost.collect, (sameCalls_onLostConnection w i dialed).locked.trans h.unlocked,
        fun _ => hlost.idle_collect⟩

/-- What a write event may lose: a connection with something to send that waits for responses, or that gets
    a new request. -/
def AtStake (s : BinClientA) (i : Nat) : Prop :=
  ((s.conn i).sendBuffer.length ≠ 0 ∧ (s.conn i).sentRequests ≠ []) ∨
    ((s.conn i).state = .active ∧ (s.conn i).sendBuffer.length = 0 ∧ s.newRequests ≠ [])

instance (s : BinClientA) (i : Nat) : Decidable (AtStake s i) := by
  unfold AtStake
  infer_instance

/-- **What `onWrite` does before its connection goes**: nothing is run, and the connection has left the table
    with requests exactly when its send failed for good with something at stake. -/
theorem Between.onWriteLocked_eq (h : Between w) (hidle : Idle w.client) {sock : Nat}
    (hi : w.client.connections[sock]? = some i) (r : SendResult) (dialed : Option Dialed) :
    ∃ v, Consistent v ∧ SameCalls w.lock v ∧ w.lock.onWriteLocked sock r dialed = v.finishing .collect ∧
      (Idle v.client ↔ ¬ (r = .fatal ∧ AtStake w.client i)) := by
  have hlock : Consistent w.lock := h.consistent.same rfl (fun _ => rfl) rfl rfl rfl rfl
  have hfree := hlock.setFree hi
  have hclient : w.lock.client = w.client := rfl
  unfold WatchedClient.onWriteLocked AtStake
  rw [hclient, hi]
  dsimp only
  by_cases hempty : (w.client.conn i).sendBuffer.length = 0
  · by_cases hactive : (w.client.conn i).state = .active
    · rw [if_pos hactive, if_pos hempty]
      cases hnew : w.client.newRequests with
      | nil =>
          refine ⟨_, hfree, ⟨rfl, rfl, rfl, rfl⟩, rfl, iff_of_true hidle ?_⟩
          simp [hempty]
      | cons req rest =>
          have hgiven := hlock.given i req rest
          refine ⟨_, hgiven.performSend hi r dialed,
            (sameCalls_given i req rest w.lock).trans (sameCalls_performSend _ i r dialed), rfl, ?_⟩
          rw [hlock.idle_given_performSend hidle hi]
          simp [hempty, hactive]
    · rw [if_neg hactive, if_pos hempty]
      have hset : SameCalls w.lock (w.lock.on (·.setFree sock i)) := ⟨rfl, rfl, rfl, rfl⟩
      refine ⟨_, hfree.performSend hi r dialed, hset.trans (sameCalls_performSend _ i r dialed), rfl, ?_⟩
      refine iff_of_true ((hfree.idle_performSend hidle hi r dialed).mpr fun hlost => hlost.2.1 hempty) ?_
      simp [hempty, hactive]
  · have hsend := hlock.idle_performSend hidle hi r dialed
    have heither : (r = .fatal ∧ (((w.client.conn i).sendBuffer.length ≠ 0 ∧
        (w.client.conn i).sentRequests ≠ []) ∨ ((w.client.conn i).state = .active ∧
        (w.client.conn i).sendBuffer.length = 0 ∧ w.client.newRequests ≠ []))) ↔
        (r = .fatal ∧ (w.client.conn i).sendBuffer.length ≠ 0 ∧ (w.client.conn i).sentRequests ≠ []) := by
      simp [hempty]
    rw [if_neg hempty, if_neg hempty, ite_self, heither]
    exact ⟨_, hlock.performSend hi r dialed, sameCalls_performSend _ i r dialed, rfl, hsend⟩

/-- A write event of a socket that is not in the table. -/
theorem onWrite_none {sock : Nat} (hi : w.client.connections[sock]? = none) (r : SendResult)
    (dialed : Option Dialed) : w.onWrite sock r dialed = w.lock.unlock := by
  have hclient : w.lock.client = w.client := rfl
  unfold WatchedClient.onWrite onWriteLocked
  rw [hclient, hi]

theorem Between.onWrite (h : Between w) (hu : w.client.undefined = false) (sock : Nat) (r : SendResult)
    (dialed : Option Dialed) : Between (w.onWrite sock r dialed) := by
  cases hi : w.client.connections[sock]? with
  | none =>
      rw [onWrite_none hi]
      exact ⟨h.consistent.same rfl (fun _ => rfl) rfl rfl rfl rfl, rfl, h.idle⟩
  | some i =>
      obtain ⟨v, hv, -, heq, -⟩ := h.onWriteLocked_eq (h.idle hu) hi r dialed
      unfold WatchedClient.onWrite
      rw [heq]
      exact ⟨hv.collect.same rfl (fun _ => rfl) rfl rfl rfl rfl, rfl, fun _ => hv.idle_collect⟩

theorem locked_handleEvents (h : Between w) (hu : w.client.undefined = false) (dialed : Option Dialed)
    (put : SendResult) (redialed : Option Dialed) (now : Nat) (keepalive : Nat → SendResult) :
    (w.handleEvents dialed put redialed now keepalive).locked = false := by
  obtain ⟨hcons, hid, hsame, -⟩ := h.consistent.attempted (h.idle hu) dialed
  by_cases hreached : PutReached w.client dialed
  · rw [handleEvents_returns hcons hid ((attempted_returns w dialed).mpr hreached)]
    split <;> rfl
  · rw [handleEvents_thrown (mt (attempted_returns w dialed).mp hreached)]
    exact hsame.locked.trans h.unlocked

theorem Between.handleEvents (h : Between w) (hu : w.client.undefined = false) (dialed : Option Dialed)
    (put : SendResult) (redialed : Option Dialed) (now : Nat) (keepalive : Nat → SendResult) :
    Between (w.handleEvents dialed put redialed now keepalive) := by
  refine ⟨h.consistent.handleEvents dialed put redialed now keepalive,
    locked_handleEvents h hu dialed put redialed now keepalive, fun hundef => ?_⟩
  by_cases hlost : PutLost w.client dialed put
  · have hgone := (h.consistent.handleEvents_lost (h.idle hu) hlost redialed now keepalive).2.1
    exact absurd (hundef.symm.trans hgone) (by simp)
  · exact (h.consistent.handleEvents_kept (h.idle hu) h.unlocked hlost redialed now keepalive).2

theorem Between.step {pb : Protobuf} {input : BinClientA.Input} (h : Between w)
    (hstep : w.step pb input = some v) : Between v := by
  unfold WatchedClient.step at hstep
  split at hstep
  · exact absurd hstep (by simp)
  · rename_i hundef
    have hu := Bool.eq_false_of_not_eq_true hundef
    cases input with
    | call c =>
        obtain rfl := Option.some.inj hstep
        exact ⟨h.consistent.same rfl (fun _ => rfl) rfl rfl rfl rfl, rfl, h.idle⟩
    | handleEvents dialed put redialed now keepalive =>
        obtain rfl := Option.some.inj hstep
        exact h.handleEvents hu dialed put redialed now keepalive
    | read sock junk rs redialed =>
        obtain rfl := Option.some.inj hstep
        exact h.onRead sock junk rs redialed
    | write sock r redialed =>
        obtain rfl := Option.some.inj hstep
        exact h.onWrite hu sock r redialed
    | error sock redialed =>
        obtain rfl := Option.some.inj hstep
        exact h.onError sock redialed

/-- The constructor runs nothing. -/
theorem reinitConnections_calls (attempts : List (Option Dialed)) (w : WatchedClient) (hidle : Idle w.client) :
    SameCalls w (reinitConnections attempts w).1 ∧ Idle (reinitConnections attempts w).1.client := by
  induction attempts generalizing w with
  | nil => exact ⟨⟨rfl, rfl, rfl, rfl⟩, hidle⟩
  | cons dialed rest ih =>
      have hsame := sameCalls_establishNewConnection w dialed
      have hid := idle_establishNewConnection hidle dialed
      unfold WatchedClient.reinitConnections
      generalize w.establishNewConnection dialed = out at hsame hid ⊢
      obtain ⟨u, _ | e⟩ := out
      · exact ⟨hsame.trans (ih u hid).1, (ih u hid).2⟩
      · exact ⟨hsame, hid⟩

theorem new_calls {attempts : List (Option Dialed)} (hnew : new attempts = some w) :
    SameCalls (unconnected attempts.length) w ∧ Idle w.client := by
  have hinit := reinitConnections_calls attempts (unconnected attempts.length)
    fun i hi _ => absurd hi (by simp [unconnected])
  rwa [reinitConnections_of_new hnew] at hinit

theorem Between.new {attempts : List (Option Dialed)} (hnew : new attempts = some w) : Between w :=
  ⟨Consistent.new hnew, (new_calls hnew).1.locked, fun _ => (new_calls hnew).2⟩

/-- What a step does is said where it is defined. -/
theorem forall_step_iff {Good : WatchedClient → Prop} {Q : Prop} {pb : Protobuf} {input : BinClientA.Input}
    (h : w.client.undefined = false → ((∀ v, w.step pb input = some v → Good v) ↔ Q)) :
    (∀ v, w.step pb input = some v → Good v) ↔ (w.client.undefined = false → Q) := by
  cases hu : w.client.undefined with
  | true =>
      apply iff_of_true
      · intro v hv
        unfold WatchedClient.step at hv
        rw [if_pos hu] at hv
        exact absurd hv (by simp)
      · exact fun hfalse => absurd hfalse (by simp)
  | false =>
      rw [h hu]
      exact ⟨fun hq _ => hq, fun hq => hq rfl⟩

/-! ## Callbacks and the lock -/

/-- No callback has been run under the lock. -/
def Unlocked (w : WatchedClient) : Prop := ∀ c ∈ w.callbacks, c.locked = false

theorem SameCalls.unlocked (h : SameCalls w v) : Unlocked v ↔ Unlocked w := by
  unfold Unlocked
  rw [h.callbacks]

/-- What is run without the lock is. -/
theorem Unlocked.finishing (h : Unlocked w) (hunlocked : w.locked = false) (f : BinClientA → BinClientA) :
    Unlocked (w.finishing f) := by
  intro c hc
  rcases List.mem_append.mp hc with hc | hc
  · exact h c hc
  · obtain ⟨call, -, rfl⟩ := List.mem_map.mp hc
    exact hunlocked

/-- At the end of a handler that holds the lock, nothing may be run. -/
theorem Consistent.unlocked_collect (h : Consistent w) (hlocked : w.locked = true) :
    Unlocked (w.finishing .collect) ↔ Unlocked w ∧ Idle w.client := by
  rw [← h.callbacksOf_collect]
  constructor
  · intro hafter
    refine ⟨fun c hc => hafter c (List.mem_append_left _ hc), ?_⟩
    refine List.eq_nil_iff_forall_not_mem.mpr fun c hc => ?_
    have hfree := hafter c (List.mem_append_right _ hc)
    obtain ⟨call, -, rfl⟩ := List.mem_map.mp hc
    exact absurd (hfree.symm.trans hlocked) (by simp)
  · rintro ⟨hbefore, hnone⟩ c hc
    have hc' : c ∈ w.callbacks ++ w.callbacksOf .collect := hc
    rw [hnone, List.append_nil] at hc'
    exact hbefore c hc'

/-- A read event takes no lock. -/
theorem Unlocked.onRead (h : Unlocked w) (hunlocked : w.locked = false) (sock : Nat) (junk : Junk)
    (rs : List RecvResult) (dialed : Option Dialed) : Unlocked (w.onRead sock junk rs dialed) := by
  unfold WatchedClient.onRead
  cases w.client.connections[sock]? with
  | none => exact h
  | some i =>
      have hrecv : Unlocked (w.performRecv i junk rs dialed) := by
        have hreceived := h.finishing hunlocked (recvOn i junk rs)
        unfold performRecv
        dsimp only
        split
        · exact hreceived
        · rcases ((w.client.conn i).performRecv junk rs).thrown with _ | _ | _ | _
          · exact hreceived
          · exact (sameCalls_onLostConnection _ i dialed).unlocked.mpr hreceived
          · exact hreceived
          · exact (sameCalls_onLostConnection _ i dialed).unlocked.mpr hreceived
      dsimp only
      split
      · exact hrecv
      · exact hrecv.finishing ((locked_performRecv w i junk rs dialed).trans hunlocked) _

theorem Unlocked.onError (h : Unlocked w) (hunlocked : w.locked = false) (sock : Nat)
    (dialed : Option Dialed) : Unlocked (w.onError sock dialed) := by
  unfold WatchedClient.onError
  cases w.client.connections[sock]? with
  | none => exact h
  | some i =>
      have hsame := sameCalls_onLostConnection w i dialed
      exact (hsame.unlocked.mpr h).finishing (hsame.locked.trans hunlocked) _

/-- **A write event** runs callbacks under the lock exactly when its send fails for good with something at
    stake. -/
theorem Between.unlocked_onWrite (h : Between w) (hu : w.client.undefined = false) (hgood : Unlocked w)
    {sock : Nat} (hi : w.client.connections[sock]? = some i) (r : SendResult) (dialed : Option Dialed) :
    Unlocked (w.onWrite sock r dialed) ↔ ¬ (r = .fatal ∧ AtStake w.client i) := by
  obtain ⟨v, hv, hsame, heq, hidle⟩ := h.onWriteLocked_eq (h.idle hu) hi r dialed
  have hbefore : Unlocked v := hsame.unlocked.mpr hgood
  show Unlocked (w.lock.onWriteLocked sock r dialed) ↔ _
  rw [heq, hv.unlocked_collect hsame.locked, hidle]
  exact and_iff_right hbefore

/-- What keeps a step from running callbacks under the lock: neither a write event nor `handleEvents` meets a
    send that fails for good on a connection with requests. -/
def SparesRequests (w : WatchedClient) (input : BinClientA.Input) : Prop :=
  w.client.undefined = false →
    match input with
    | .call _ => True
    | .handleEvents dialed put _ _ _ => ¬ PutLost w.client dialed put
    | .read _ _ _ _ => True
    | .write sock r _ => ∀ i ∈ w.client.connections[sock]?, ¬ (r = .fatal ∧ AtStake w.client i)
    | .error _ _ => True

instance (w : WatchedClient) (input : BinClientA.Input) : Decidable (SparesRequests w input) := by
  unfold SparesRequests
  cases input <;> infer_instance

/-- **One step.** -/
theorem Between.unlocked_step (h : Between w) (hgood : Unlocked w) (pb : Protobuf)
    (input : BinClientA.Input) :
    (∀ v, w.step pb input = some v → Unlocked v) ↔ SparesRequests w input := by
  unfold SparesRequests
  apply forall_step_iff
  intro hu
  unfold WatchedClient.step
  rw [if_neg (by simp [hu])]
  cases input with
  | call c => exact iff_of_true (fun v hv => Option.some.inj hv ▸ hgood) True.intro
  | handleEvents dialed put redialed now keepalive =>
      dsimp only
      simp only [Option.some.injEq, forall_eq']
      constructor
      · intro hafter hlost
        obtain ⟨-, -, c, hc, hlocked⟩ :=
          h.consistent.handleEvents_lost (h.idle hu) hlost redialed now keepalive
        exact absurd ((hafter c hc).symm.trans hlocked) (by simp)
      · intro hkept
        exact (h.consistent.handleEvents_kept (h.idle hu) h.unlocked hkept redialed now
          keepalive).1.unlocked.mpr hgood
  | read sock junk rs redialed =>
      exact iff_of_true (fun v hv => Option.some.inj hv ▸ hgood.onRead h.unlocked sock junk rs redialed)
        True.intro
  | write sock r redialed =>
      simp only [Option.some.injEq, forall_eq']
      cases hi : w.client.connections[sock]? with
      | none =>
          rw [onWrite_none hi]
          exact iff_of_true hgood fun i hi' => absurd hi' (by simp)
      | some i => exact (h.unlocked_onWrite hu hgood hi r redialed).trans ⟨fun hkept j hj =>
          Option.some.inj hj ▸ hkept, fun hkept => hkept i rfl⟩
  | error sock redialed =>
      exact iff_of_true (fun v hv => Option.some.inj hv ▸ hgood.onError h.unlocked sock redialed) True.intro

/-- **Callbacks and the lock.** No callback of a run is made by a thread that holds the lock, exactly when no
    step of it meets a send that fails for good on a connection with requests: in `onWrite` with something at
    stake, in `handleEvents` right after a request was handed to a free connection. -/
theorem callbacks_unlocked_iff (pb : Protobuf) {attempts : List (Option Dialed)}
    {inputs : List BinClientA.Input} {w₀ : WatchedClient} (hnew : new attempts = some w₀) :
    Always (step pb) Unlocked w₀ inputs ↔ Along (step pb) SparesRequests w₀ inputs := by
  have hnone : Unlocked w₀ := by
    intro c hc
    rw [(new_calls hnew).1.callbacks] at hc
    exact absurd hc (by simp [unconnected])
  exact always_iff_along_of_invariant Between Between.step (fun h hgood => h.unlocked_step hgood pb _)
    (Between.new hnew) hnone

/-- A request is sent, and its connection lost in a read. -/
def lostInRead : List BinClientA.Input :=
  [.call pingCall, .read 5 (fun _ => 0) [.data (ascii "hiapi_connected"), .again] none,
    .write 5 (.accepted 1000) none, .read 5 (fun _ => 0) [.closed] none]

theorem lostInRead_runs :
    (Lib.run (step shortWire) ((new BinClientA.oneAttempt).get oneAttempt_watched)
      lostInRead).isSome = true := by decide +kernel

/-- The theorem at that run: the destructor of the connection finishes the request with no lock held. -/
theorem lostInRead_unlocked : ∃ w₀ w, new BinClientA.oneAttempt = some w₀ ∧
    Lib.run (step shortWire) w₀ lostInRead = some w ∧
    w.callbacks.map (fun c => (c.call.ok, c.locked)) = [(false, false)] ∧
    Always (step shortWire) Unlocked w₀ lostInRead := by
  refine ⟨_, _, (Option.some_get oneAttempt_watched).symm, (Option.some_get lostInRead_runs).symm,
    by decide +kernel, ?_⟩
  rw [callbacks_unlocked_iff shortWire (Option.some_get oneAttempt_watched).symm]
  decide +kernel

/-- A new request goes to the connection in a write event, and the send fails for good. -/
def lostInWrite : List BinClientA.Input :=
  [.call pingCall, .read 5 (fun _ => 0) [.data (ascii "hiapi_connected"), .again] none,
    .write 5 .fatal none]

theorem lostInWrite_runs :
    (Lib.run (step shortWire) ((new BinClientA.oneAttempt).get oneAttempt_watched)
      lostInWrite).isSome = true := by decide +kernel

/-- The destructor of the connection finishes the request under the lock. -/
theorem lostInWrite_locked :
    ¬ Always (step shortWire) Unlocked ((new BinClientA.oneAttempt).get oneAttempt_watched) lostInWrite := by
  intro h
  have hlast := h lostInWrite _ List.prefix_rfl (Option.some_get lostInWrite_runs).symm
  have hrun : ((Lib.run (step shortWire) ((new BinClientA.oneAttempt).get oneAttempt_watched)
      lostInWrite).get lostInWrite_runs).callbacks.map CallbackRun.locked = [true] := by decide +kernel
  obtain ⟨c, hc, hlocked⟩ := List.mem_map.mp (hrun ▸ List.mem_singleton_self true)
  exact absurd ((hlast c hc).symm.trans hlocked) (by simp)

end WatchedClient
end BinClient
end Hiaux
