import Hiaux.BinClient.WatchedClient
import Hiaux.BinClient.Correctness.Destruction

/-!
# `BinClient.Correctness.Tables` — the tables of connections stay consistent

A connection is entered into the table under its own socket, and a handler works on connections of the
table only, so what `removeConnection` takes out is the connection that was lost. Its place is free then,
for the connection that replaces it, whatever becomes of that (`Consistent.onLostConnection`). Free
connections are entered from the table and leave it with their entry there; the watcher is told of every
entry that comes or goes.
-/

namespace Hiaux
namespace BinClient

open Lib Strings Network Events

/-! ## Sockets of connections -/

namespace Connection

theorem sock_performSend (r : SendResult) (c : Connection) : (c.performSend r).1.sock = c.sock := by
  unfold performSend
  split
  · rfl
  · cases r with
    | fatal => rfl
    | again => rfl
    | accepted n =>
        dsimp only
        split <;> rfl

theorem sock_checkKeepAlive (now : Nat) (r : SendResult) (c : Connection) :
    (c.checkKeepAlive now r).1.sock = c.sock := by
  unfold checkKeepAlive
  split
  · exact sock_performSend r _
  · rfl

theorem sock_performRecv (junk : Junk) (rs : List RecvResult) (c : Connection) :
    (c.performRecv junk rs).conn.sock = c.sock := by
  unfold performRecv
  split
  · rename_i readbf _
    rw [afterRecv_eq]
  · rfl
  · rfl

theorem sock_new (sock now : Nat) (r : SendResult) : (new sock now r).1.sock = sock :=
  sock_performSend r _

end Connection

namespace WatchedClient

/-! ## The invariant -/

/-- The tables of the client and the masks of its watcher belong together. -/
structure Consistent (w : WatchedClient) : Prop where
  allocated : ∀ {sock i : Nat}, w.client.connections[sock]? = some i → i < w.client.allocated
  own : ∀ {sock i : Nat}, w.client.connections[sock]? = some i → (w.client.conn i).sock = sock
  free : ∀ {sock i : Nat}, w.client.freeConnections[sock]? = some i → w.client.connections[sock]? = some i
  watched : ∀ sock : Nat, sock ∈ w.socketsMasks ↔ sock ∈ w.client.connections
  bound : w.client.connections.size ≤ w.client.maxConnections

variable {w v : WatchedClient} {i : Nat}

/-- A change that leaves the tables, the masks and the sockets alone. -/
theorem Consistent.same (h : Consistent w) (halloc : v.client.allocated = w.client.allocated)
    (hsock : ∀ j, (v.client.conn j).sock = (w.client.conn j).sock)
    (htable : v.client.connections = w.client.connections)
    (hfree : v.client.freeConnections = w.client.freeConnections)
    (hmax : v.client.maxConnections = w.client.maxConnections) (hmasks : v.socketsMasks = w.socketsMasks) :
    Consistent v where
  allocated := by
    rw [htable, halloc]
    exact h.allocated
  own := by
    intro sock j
    rw [htable, hsock]
    exact h.own
  free := by
    rw [htable, hfree]
    exact h.free
  watched := by
    rw [htable, hmasks]
    exact h.watched
  bound := by
    rw [htable, hmax]
    exact h.bound

/-! ## Changes of one connection -/

/-- An object that keeps its socket. -/
theorem sock_update {s t : BinClientA} {o : ConnObject} (hobj : t.objects = Function.update s.objects i o)
    (ho : o.conn.sock = (s.conn i).sock) (j : Nat) : (t.conn j).sock = (s.conn j).sock := by
  by_cases hj : j = i
  · subst hj
    rw [BinClientA.conn, hobj, Function.update_self]
    exact ho
  · rw [BinClientA.conn, hobj, Function.update_of_ne hj]
    rfl

theorem Consistent.setConn (h : Consistent w) {c : Connection} (hc : c.sock = (w.client.conn i).sock) :
    Consistent (w.on (·.setConn i c)) :=
  h.same rfl (sock_update rfl hc) rfl rfl rfl rfl

theorem Consistent.setFree (h : Consistent w) {sock : Nat} (hi : w.client.connections[sock]? = some i) :
    Consistent (w.on (·.setFree sock i)) where
  allocated := h.allocated
  own := h.own
  free := by
    intro sock' j hj
    have hj' : (w.client.freeConnections.insert sock i)[sock']? = some j := hj
    rw [Std.ExtTreeMap.getElem?_insert] at hj'
    split at hj'
    · rename_i heq
      obtain rfl := Std.LawfulEqCmp.eq_of_compare heq
      exact Option.some.inj hj' ▸ hi
    · exact h.free hj'
  watched := h.watched
  bound := h.bound

/-! ## Connections that come and go -/

theorem sock_release (s : BinClientA) (j : Nat) : ((s.release i).conn j).sock = (s.conn j).sock := by
  unfold BinClientA.release
  split
  · rfl
  · exact sock_update (o := { s.objects i with conn := { s.conn i with sentRequests := [] } }) rfl rfl j

theorem Consistent.collect (h : Consistent w) : Consistent (w.finishing .collect) := by
  have hkept := BinClientA.kept_foldl_release (List.range w.client.allocated) w.client
  have hsock : ∀ (l : List Nat) (s : BinClientA) (j : Nat),
      ((l.foldl (fun s i => s.release i) s).conn j).sock = (s.conn j).sock ∧
        (l.foldl (fun s i => s.release i) s).maxConnections = s.maxConnections := by
    intro l
    induction l with
    | nil => exact fun _ _ => ⟨rfl, rfl⟩
    | cons i l ih =>
        intro s j
        have hmax : (s.release i).maxConnections = s.maxConnections := by
          unfold BinClientA.release
          split <;> rfl
        exact ⟨(ih _ j).1.trans (sock_release s j), (ih _ j).2.trans hmax⟩
  exact h.same hkept.allocated (fun j => (hsock _ _ j).1) hkept.connections hkept.freeConnections
    (hsock _ _ 0).2 rfl

/-- **A connection is removed** from both tables and from the watcher; if it was in the table, there is room
    for another. -/
theorem Consistent.removeConnection (h : Consistent w) (i : Nat) : Consistent (w.removeConnection i) where
  allocated := fun ht => h.allocated (getElem?_of_erase ht)
  own := fun ht => h.own (getElem?_of_erase ht)
  free := by
    intro sock j hj
    have hj' : (w.client.freeConnections.erase (w.client.conn i).sock)[sock]? = some j := hj
    show (w.client.connections.erase (w.client.conn i).sock)[sock]? = some j
    rw [getElem?_erase_iff] at hj' ⊢
    exact ⟨hj'.1, h.free hj'.2⟩
  watched := by
    intro sock
    show sock ∈ w.socketsMasks.erase (w.client.conn i).sock ↔
      sock ∈ w.client.connections.erase (w.client.conn i).sock
    rw [Std.ExtTreeMap.mem_erase, Std.ExtTreeMap.mem_erase, h.watched]
  bound := Nat.le_trans Std.ExtTreeMap.size_erase_le h.bound

theorem Consistent.room (h : Consistent w) {sock : Nat} (hi : w.client.connections[sock]? = some i) :
    (w.removeConnection i).client.connections.size < (w.removeConnection i).client.maxConnections := by
  show (w.client.connections.erase (w.client.conn i).sock).size < w.client.maxConnections
  have hmem : sock ∈ w.client.connections := by
    rw [Std.ExtTreeMap.mem_iff_isSome_getElem?, hi]
    rfl
  have hpos : 0 < w.client.connections.size := by
    refine Nat.pos_of_ne_zero fun hzero => ?_
    rw [Std.ExtTreeMap.eq_empty_iff_size_eq_zero.mpr hzero] at hmem
    exact absurd hmem Std.ExtTreeMap.not_mem_empty
  have hbound := h.bound
  rw [h.own hi, Std.ExtTreeMap.size_erase, if_pos (Std.ExtTreeMap.mem_iff_contains.mp hmem)]
  omega

/-- The client with a connection entered under a socket that is registered. -/
def withConnection (sock : Nat) (c : Connection) (w : WatchedClient) : WatchedClient :=
  { w with
    client := { w.client with
      objects := Function.update w.client.objects w.client.allocated ⟨c, [], []⟩
      allocated := w.client.allocated + 1
      connections := w.client.connections.insertIfNew sock w.client.allocated }
    socketsMasks := w.socketsMasks.insert sock (hiRead ||| hiWrite) }

/-- **What an attempt to connect does**: nothing, or it enters a connection with nothing to answer. -/
theorem establishNewConnection_cases (w : WatchedClient) (dialed : Option Dialed) :
    (w.establishNewConnection dialed).1 = w ∨
      ∃ d c, dialed = some d ∧ c.sock = d.sock ∧ c.sentRequests = [] ∧
        w.establishNewConnection dialed = (w.withConnection d.sock c, none) := by
  cases dialed with
  | none => exact Or.inl rfl
  | some d =>
      have hsock := Connection.sock_new d.sock d.now d.sent
      have hsent : (Connection.new d.sock d.now d.sent).1.sentRequests = [] :=
        (Connection.performSend_kept _ _).1
      unfold WatchedClient.establishNewConnection BinClientA.establishNewConnection
      dsimp only
      rcases hnew : Connection.new d.sock d.now d.sent with ⟨c, _ | e⟩
      · rw [hnew] at hsock hsent
        exact Or.inr ⟨d, c, rfl, hsock, hsent, rfl⟩
      · exact Or.inl rfl

/-- **A new connection** is entered under its socket. -/
theorem Consistent.withConnection (h : Consistent w)
    (hroom : w.client.connections.size < w.client.maxConnections) {sock : Nat} {c : Connection}
    (hc : c.sock = sock) : Consistent (w.withConnection sock c) where
  allocated := by
    intro sock' j ht
    rcases getElem?_insertIfNew ht with ⟨-, rfl⟩ | ht
    · exact Nat.lt_succ_self _
    · exact Nat.lt_succ_of_lt (h.allocated ht)
  own := by
    intro sock' j ht
    show (Function.update w.client.objects w.client.allocated ⟨c, [], []⟩ j).conn.sock = sock'
    rcases getElem?_insertIfNew ht with ⟨rfl, rfl⟩ | ht
    · rw [Function.update_self]
      exact hc
    · rw [Function.update_of_ne (Nat.ne_of_lt (h.allocated ht))]
      exact h.own ht
  -- a socket of the free table is in the table already
  free := fun hj => getElem?_insertIfNew_of_some sock w.client.allocated (h.free hj)
  watched := by
    intro sock'
    show sock' ∈ w.socketsMasks.insert sock _ ↔ sock' ∈ w.client.connections.insertIfNew sock _
    rw [Std.ExtTreeMap.mem_insert, Std.ExtTreeMap.mem_insertIfNew, h.watched]
  bound := Nat.le_trans Std.ExtTreeMap.size_insertIfNew_le hroom

/-- An attempt to connect, where there is room. -/
theorem Consistent.establishNewConnection (h : Consistent w)
    (hroom : w.client.connections.size < w.client.maxConnections) (dialed : Option Dialed) :
    Consistent (w.establishNewConnection dialed).1 := by
  rcases w.establishNewConnection_cases dialed with heq | ⟨d, c, -, hc, -, heq⟩
  · rw [heq]
    exact h
  · rw [heq]
    exact h.withConnection hroom hc

/-- **A lost connection** makes room for the one that replaces it. -/
theorem Consistent.onLostConnection (h : Consistent w) {sock : Nat}
    (hi : w.client.connections[sock]? = some i) (dialed : Option Dialed) :
    Consistent (w.onLostConnection i dialed) :=
  (h.removeConnection i).establishNewConnection (h.room hi) dialed

/-! ## Sending and receiving -/

theorem Consistent.performSend (h : Consistent w) {sock : Nat} (hi : w.client.connections[sock]? = some i)
    (r : SendResult) (dialed : Option Dialed) : Consistent (w.performSend i r dialed) := by
  have hsock := Connection.sock_performSend r (w.client.conn i)
  unfold WatchedClient.performSend
  generalize (w.client.conn i).performSend r = out at hsock ⊢
  rcases out with ⟨c, _ | _ | _ | _⟩
  · exact h.setConn hsock
  · exact (h.setConn hsock).onLostConnection hi dialed
  · exact h.setConn hsock
  · exact h.setConn hsock

theorem Consistent.performRecv (h : Consistent w) {sock : Nat} (hi : w.client.connections[sock]? = some i)
    (junk : Junk) (rs : List RecvResult) (dialed : Option Dialed) :
    Consistent (w.performRecv i junk rs dialed) := by
  have hrecv : Consistent (w.finishing (recvOn i junk rs)) :=
    h.same rfl (sock_update rfl (Connection.sock_performRecv junk rs _)) rfl rfl rfl rfl
  unfold WatchedClient.performRecv
  dsimp only
  split
  · exact hrecv.same rfl (fun _ => rfl) rfl rfl rfl rfl
  · rcases ((w.client.conn i).performRecv junk rs).thrown with _ | _ | _ | _
    · exact hrecv
    · exact hrecv.onLostConnection hi dialed
    · exact hrecv
    · exact hrecv.onLostConnection hi dialed

/-! ## Handlers -/

theorem Consistent.onRead (h : Consistent w) (sock : Nat) (junk : Junk) (rs : List RecvResult)
    (dialed : Option Dialed) : Consistent (w.onRead sock junk rs dialed) := by
  unfold WatchedClient.onRead
  cases hi : w.client.connections[sock]? with
  | none => exact h
  | some i =>
      have hrecv := h.performRecv hi junk rs dialed
      dsimp only
      split
      · exact hrecv
      · exact hrecv.collect

theorem Consistent.onWriteLocked (h : Consistent w) (sock : Nat) (r : SendResult) (dialed : Option Dialed) :
    Consistent (w.onWriteLocked sock r dialed) := by
  unfold WatchedClient.onWriteLocked
  cases hi : w.client.connections[sock]? with
  | none => exact h
  | some i =>
      dsimp only
      by_cases hactive : (w.client.conn i).state = .active
      · rw [if_pos hactive]
        by_cases hempty : (w.client.conn i).sendBuffer.length = 0
        · rw [if_pos hempty]
          cases w.client.newRequests with
          | nil => exact (h.setFree hi).collect
          | cons req rest =>
              have hadd : Consistent (w.on fun s => { s.addRequest i req with newRequests := rest }) :=
                h.same rfl (sock_update rfl rfl) rfl rfl rfl rfl
              exact (hadd.performSend hi r dialed).collect
        · rw [if_neg hempty]
          exact (h.performSend hi r dialed).collect
      · rw [if_neg hactive]
        by_cases hempty : (w.client.conn i).sendBuffer.length = 0
        · rw [if_pos hempty]
          exact ((h.setFree hi).performSend hi r dialed).collect
        · rw [if_neg hempty]
          exact (h.performSend hi r dialed).collect

theorem Consistent.onError (h : Consistent w) (sock : Nat) (dialed : Option Dialed) :
    Consistent (w.onError sock dialed) := by
  unfold WatchedClient.onError
  cases hi : w.client.connections[sock]? with
  | none => exact h
  | some i => exact (h.onLostConnection hi dialed).collect

/-- A connection found among the free ones is in the table. -/
theorem Consistent.of_find (h : Consistent w) {P : Nat × Nat → Bool} {sock : Nat}
    (hfind : w.client.freeConnections.toList.find? P = some (sock, i)) :
    w.client.freeConnections[sock]? = some i ∧ w.client.connections[sock]? = some i := by
  have hfree : w.client.freeConnections[sock]? = some i :=
    Std.ExtTreeMap.mem_toList_iff_getElem?_eq_some.mp (List.mem_of_find?_eq_some hfind)
  exact ⟨hfree, h.free hfree⟩

theorem Consistent.putRequestsLocked (h : Consistent w) (r : SendResult) (dialed : Option Dialed) :
    Consistent (w.putRequestsLocked r dialed) := by
  unfold WatchedClient.putRequestsLocked
  cases w.client.newRequests with
  | nil => exact h
  | cons req rest =>
      dsimp only
      cases hfind : w.client.freeConnections.toList.find? (fun p => (w.client.conn p.2).state = .active) with
      | none => exact h
      | some p =>
          obtain ⟨sock, i⟩ := p
          have hi := (h.of_find hfind).2
          have hadd : Consistent (w.on fun s => { s with newRequests := rest }.addRequest i req) :=
            h.same rfl (sock_update rfl rfl) rfl rfl rfl rfl
          have hsend := hadd.performSend hi r dialed
          dsimp only
          split
          · refine Consistent.collect ?_
            exact ⟨hsend.allocated, hsend.own, fun hj => hsend.free (getElem?_of_erase hj),
              hsend.watched, hsend.bound⟩
          · exact hsend.same rfl (fun _ => rfl) rfl rfl rfl rfl

theorem Consistent.checkKeepAlive (now : Nat) (keepalive : Nat → SendResult) (l : List (Nat × Nat))
    (h : Consistent w) : Consistent (w.on (·.checkKeepAlive now keepalive l)) := by
  induction l generalizing w with
  | nil => exact h
  | cons p l ih =>
      obtain ⟨sock, i⟩ := p
      have hsock := Connection.sock_checkKeepAlive now (keepalive sock) (w.client.conn i)
      rw [WatchedClient.on, BinClientA.checkKeepAlive]
      generalize (w.client.conn i).checkKeepAlive now (keepalive sock) = out at hsock ⊢
      rcases out with ⟨c, _ | e⟩
      · exact ih (h.setConn hsock)
      · exact h.setConn hsock

theorem Consistent.handleEvents (h : Consistent w) (dialed : Option Dialed) (put : SendResult)
    (redialed : Option Dialed) (now : Nat) (keepalive : Nat → SendResult) :
    Consistent (w.handleEvents dialed put redialed now keepalive) := by
  -- what follows the attempt to connect
  have hrest : ∀ {v : WatchedClient} (thrown : Option ConnEx), Consistent v →
      Consistent (if thrown.isSome then v
        else
          if ((v.finishing .collect).putRequestsToFreeConnections put redialed).client.undefined then
            (v.finishing .collect).putRequestsToFreeConnections put redialed
          else ((v.finishing .collect).putRequestsToFreeConnections put redialed).on
            (fun s => s.checkKeepAlive now keepalive s.connections.toList)) := by
    intro v thrown hv
    have hlock : Consistent (v.finishing .collect).lock := hv.collect.same rfl (fun _ => rfl) rfl rfl rfl rfl
    have hput : Consistent ((v.finishing .collect).putRequestsToFreeConnections put redialed) :=
      (hlock.putRequestsLocked put redialed).same rfl (fun _ => rfl) rfl rfl rfl rfl
    split
    · exact hv
    · split
      · exact hput
      · exact hput.checkKeepAlive now keepalive _
  unfold WatchedClient.handleEvents
  by_cases hroom : w.client.connections.size < w.client.maxConnections
  · rw [if_pos hroom]
    exact hrest _ (h.establishNewConnection hroom dialed)
  · rw [if_neg hroom]
    exact hrest _ h

/-! ## Runs -/

theorem Consistent.step {pb : Protobuf} {input : BinClientA.Input} (h : Consistent w)
    (hstep : w.step pb input = some v) : Consistent v := by
  unfold WatchedClient.step at hstep
  split at hstep
  · exact absurd hstep (by simp)
  · cases input with
    | call c =>
        obtain rfl := Option.some.inj hstep
        exact h.same rfl (fun _ => rfl) rfl rfl rfl rfl
    | handleEvents dialed put redialed now keepalive =>
        obtain rfl := Option.some.inj hstep
        exact h.handleEvents dialed put redialed now keepalive
    | read sock junk rs redialed =>
        obtain rfl := Option.some.inj hstep
        exact h.onRead sock junk rs redialed
    | write sock r redialed =>
        obtain rfl := Option.some.inj hstep
        have hlock : Consistent w.lock := h.same rfl (fun _ => rfl) rfl rfl rfl rfl
        exact (hlock.onWriteLocked sock r redialed).same rfl (fun _ => rfl) rfl rfl rfl rfl
    | error sock redialed =>
        obtain rfl := Option.some.inj hstep
        exact h.onError sock redialed

theorem consistent_unconnected (n : Nat) : Consistent (unconnected n) :=
  ⟨fun h => absurd h (by simp [unconnected]), fun h => absurd h (by simp [unconnected]),
    fun h => absurd h (by simp [unconnected]),
    fun _ => iff_of_false Std.ExtTreeMap.not_mem_empty Std.ExtTreeMap.not_mem_empty,
    Std.ExtTreeMap.size_empty ▸ Nat.zero_le n⟩

/-- An attempt to connect adds one entry at most, and does not change how many there may be. -/
theorem size_establishNewConnection (w : WatchedClient) (dialed : Option Dialed) :
    (w.establishNewConnection dialed).1.client.connections.size ≤ w.client.connections.size + 1 ∧
      (w.establishNewConnection dialed).1.client.maxConnections = w.client.maxConnections := by
  rcases w.establishNewConnection_cases dialed with heq | ⟨d, c, -, -, -, heq⟩
  · rw [heq]
    exact ⟨Nat.le_succ _, rfl⟩
  · rw [heq]
    exact ⟨Std.ExtTreeMap.size_insertIfNew_le, rfl⟩

/-- The attempts of the constructor are no more than there is room for. -/
theorem Consistent.reinitConnections (attempts : List (Option Dialed)) (h : Consistent w)
    (hroom : w.client.connections.size + attempts.length ≤ w.client.maxConnections) :
    Consistent (reinitConnections attempts w).1 := by
  induction attempts generalizing w with
  | nil => exact h
  | cons dialed rest ih =>
      rw [List.length_cons] at hroom
      have hnext := h.establishNewConnection (by omega) dialed
      obtain ⟨hsize, hmax⟩ := w.size_establishNewConnection dialed
      unfold WatchedClient.reinitConnections
      generalize w.establishNewConnection dialed = out at hnext hsize hmax ⊢
      obtain ⟨v, _ | e⟩ := out
      · exact ih hnext (by dsimp only at hsize hmax; omega)
      · exact hnext

/-- The constructor has a result when all attempts are made and one succeeds. -/
theorem reinitConnections_of_new {attempts : List (Option Dialed)} (hnew : new attempts = some w) :
    WatchedClient.reinitConnections attempts (unconnected attempts.length) = (w, none) := by
  unfold WatchedClient.new at hnew
  generalize WatchedClient.reinitConnections attempts (unconnected attempts.length) = out at hnew ⊢
  obtain ⟨v, _ | e⟩ := out
  · dsimp only at hnew
    split at hnew
    · exact absurd hnew (by simp)
    · exact congrArg (·, none) (Option.some.inj hnew)
  · exact absurd hnew (by simp)

theorem Consistent.new {attempts : List (Option Dialed)} (hnew : new attempts = some w) : Consistent w := by
  have hinit := (consistent_unconnected attempts.length).reinitConnections attempts
    (by simp [unconnected])
  rwa [reinitConnections_of_new hnew] at hinit

theorem oneAttempt_watched : (new BinClientA.oneAttempt).isSome = true := by decide +kernel

end WatchedClient
end BinClient
end Hiaux
