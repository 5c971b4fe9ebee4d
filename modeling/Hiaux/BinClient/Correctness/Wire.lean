import Hiaux.BinClient.Connection
import Hiaux.BinServer.Correctness.Framing

/-!
# `BinClient.Correctness.Wire` — requests survive the wire

The client's send buffer only ever grows by whole items, a frame or a keep-alive byte, and `performSend`
moves bytes from its front to the socket. So the bytes accepted so far, followed by the buffer, are always
the upgrade request and a sequence of whole items (`Sent`), whatever partial sends happened. What the
server reads from any part of that stream is then a matter of `BinServer.Correctness.Framing`.
-/

namespace Hiaux
namespace BinClient

open Lib Strings Network

/-- The operations of a connection that put bytes on the wire. -/
inductive SendOp where
  | addRequest (id : Nat) (call : Call)
  | checkKeepAlive (now : Nat) (r : SendResult)
  | performSend (r : SendResult)

/-- One operation; an exception leaves the connection as the throwing method left it. -/
def sendStep (pb : Protobuf) (c : Connection) : SendOp → Connection
  | .addRequest id call => c.addRequest ⟨id, buildRequest pb call⟩
  | .checkKeepAlive now r => (c.checkKeepAlive now r).1
  | .performSend r => (c.performSend r).1

/-- A run of operations. -/
def sendRun (pb : Protobuf) : Connection → List SendOp → Connection := List.foldl (sendStep pb)

/-- The requests a run adds, in order. -/
def added : List SendOp → List Call :=
  List.filterMap (fun op => match op with | .addRequest _ call => some call | _ => none)

namespace Connection

/-! ## The bytes of the stream -/

/-- Everything appended so far: what the socket has accepted, then what is still buffered. -/
def stream (c : Connection) : Bytes := c.accepted ++ c.sendBuffer

/-- **`performSend` loses and duplicates nothing**: it moves bytes from the buffer to the socket. -/
theorem stream_performSend (r : SendResult) (c : Connection) : (performSend r c).1.stream = c.stream := by
  unfold performSend
  split
  · rfl
  · cases r with
    | fatal => rfl
    | again => rfl
    | accepted n =>
        have hle : taken n c.sendBuffer.length ≤ c.sendBuffer.length := Nat.min_le_right _ _
        simp only [stream]
        split
        · rename_i heq
          simp only [← heq, List.take_length, List.append_nil]
        · simp only [List.append_assoc]
          rw [substr_of_le (by omega), List.take_append_drop]

theorem stream_addRequest (req : Request) (c : Connection) :
    (addRequest req c).stream = c.stream ++ frame req.data := by
  simp only [stream, addRequest, List.append_assoc]

theorem stream_checkKeepAlive (now : Nat) (r : SendResult) (c : Connection) :
    (checkKeepAlive now r c).1.stream = c.stream ∨
      (checkKeepAlive now r c).1.stream = c.stream ++ keepaliveMessage := by
  unfold checkKeepAlive
  split
  · right
    rw [stream_performSend]
    simp only [stream, List.append_assoc]
  · exact Or.inl rfl

/-- The stream of a connection that has added `calls` is the upgrade request and whole items, whose
    messages are the requests. -/
def Sent (pb : Protobuf) (calls : List Call) (c : Connection) : Prop :=
  ∃ is : List Framing.Item, c.stream = upgradeRequest ++ Framing.encodeItems is ∧
    Framing.messages is = calls.map (buildRequest pb) ∧
    ∀ i ∈ is, (∃ m, i = .message m) ∨ i = .ignored BinServer.keepaliveByte

theorem sent_new (pb : Protobuf) (sock now : Nat) (r : SendResult) : Sent pb [] (new sock now r).1 := by
  refine ⟨[], ?_, rfl, fun i hi => absurd hi (by simp)⟩
  rw [new, stream_performSend]
  simp only [stream, Framing.encodeItems, List.flatMap_nil, List.append_nil, List.nil_append]

/-- **One operation keeps the stream made of whole items.** -/
theorem sent_step (pb : Protobuf) {calls : List Call} {c : Connection} (h : Sent pb calls c)
    (op : SendOp) : Sent pb (calls ++ added [op]) (sendStep pb c op) := by
  obtain ⟨is, hstream, hmsgs, hall⟩ := h
  cases op with
  | addRequest id call =>
      refine ⟨is ++ [.message (buildRequest pb call)], ?_, ?_, ?_⟩
      · rw [sendStep, stream_addRequest, hstream]
        simp [Framing.encodeItems, Framing.Item.encode]
      · rw [Framing.messages, List.filterMap_append, ← Framing.messages, hmsgs]
        simp [added]
      · intro i hi
        rcases List.mem_append.mp hi with hi | hi
        · exact hall i hi
        · exact Or.inl ⟨_, List.mem_singleton.mp hi⟩
  | checkKeepAlive now r =>
      have hcalls : calls ++ added [SendOp.checkKeepAlive now r] = calls := List.append_nil calls
      rw [hcalls]
      rcases stream_checkKeepAlive now r c with hs | hs
      · exact ⟨is, hs.trans hstream, hmsgs, hall⟩
      -- the keep-alive byte is buffered only between two frames, so it is an item of its own
      · refine ⟨is ++ [.ignored BinServer.keepaliveByte], ?_, ?_, ?_⟩
        · rw [sendStep, hs, hstream]
          simp [Framing.encodeItems, Framing.Item.encode]
          decide
        · rw [Framing.messages, List.filterMap_append, ← Framing.messages, hmsgs]
          exact List.append_nil _
        · intro i hi
          rcases List.mem_append.mp hi with hi | hi
          · exact hall i hi
          · exact Or.inr (List.mem_singleton.mp hi)
  | performSend r =>
      have hcalls : calls ++ added [SendOp.performSend r] = calls := List.append_nil calls
      rw [hcalls]
      exact ⟨is, (stream_performSend r c).trans hstream, hmsgs, hall⟩

/-- Every run keeps the stream made of whole items. -/
theorem sent_run (pb : Protobuf) {calls : List Call} {c : Connection} (h : Sent pb calls c)
    (ops : List SendOp) : Sent pb (calls ++ added ops) (sendRun pb c ops) := by
  induction ops generalizing calls c with
  | nil =>
      rw [show added [] = [] from rfl, List.append_nil]
      exact h
  | cons op ops ih =>
      have hcalls : calls ++ added (op :: ops) = (calls ++ added [op]) ++ added ops := by
        rw [List.append_assoc, added, ← List.filterMap_append]
        rfl
      rw [hcalls]
      exact ih (sent_step pb h op)

end Connection

/-! ## Both sides -/

/-- Dropping a common start: what is left of a part is a part of what is left. -/
theorem drop_prefix_of_append_eq {a b u e : Bytes} (h : a ++ b = u ++ e) :
    ∃ rest, a.drop u.length ++ rest = e ∧ (b = [] → rest = []) := by
  refine ⟨b.drop (u.length - a.length), ?_, fun hb => by simp [hb]⟩
  rw [← List.drop_append, h, List.drop_left]

/-- What the server can tell about a request. -/
def callOf (r : BinServer.Request) : Call := ⟨r.method, r.params⟩

/-- A request parsed back from what `buildRequest` serialized is the request. -/
theorem callOf_ofDump {pb : Protobuf} {call : Call}
    (h : pb.parseFromString (pb.serializeAsString call.toPb) = call.toPb) :
    callOf (BinServer.Request.ofDump pb (buildRequest pb call)) = call := by
  rw [BinServer.Request.ofDump, buildRequest, h]
  simp only [callOf, Call.toPb, foldl_insert_toList]

/-- The server's machine turns the items of a connection's stream into its requests. -/
theorem runs_items_requests {pb : Protobuf} {calls : List Call} {is : List Framing.Item}
    (hsize : ∀ call ∈ calls, (buildRequest pb call).length ≤ BinServer.binrequestMaxSize)
    (hmsgs : Framing.messages is = calls.map (buildRequest pb))
    (hall : ∀ i ∈ is, (∃ m, i = .message m) ∨ i = .ignored BinServer.keepaliveByte) :
    (BinServer.requests pb).Runs .size (Framing.encodeItems is)
      (calls.map (fun call => some (BinServer.Request.ofDump pb (buildRequest pb call)))) .size [] := by
  have hfits : ∀ i ∈ is, BinServer.framing.Fits i := by
    intro i hi
    rcases hall i hi with ⟨m, rfl⟩ | rfl
    · have hm : m ∈ Framing.messages is := List.mem_filterMap.mpr ⟨_, hi, rfl⟩
      rw [hmsgs] at hm
      obtain ⟨call, hcall, rfl⟩ := List.mem_map.mp hm
      exact hsize call hcall
    · rfl
  have hrun := (Framing.runs_items BinServer.framing_readsNumerals is hfits []).mapOut
    (f := fun d => some (BinServer.Request.ofDump pb d))
  rw [hmsgs, List.append_nil, List.map_map] at hrun
  exact hrun

/-- **Requests survive the wire.** Whatever requests are added, whenever keep-alives are due and however
    the socket takes the bytes, and in whatever chunks the server receives what has been accepted after the
    upgrade request: the server throws nothing, the requests it extracts are the first of those added, with
    their method and parameters, and they are all of them when nothing is left in the send buffer. -/
theorem requests_survive_wire (pb : Protobuf) (sock now : Nat) (r : SendResult) (ops : List SendOp)
    (hsize : ∀ call ∈ added ops, (buildRequest pb call).length ≤ BinServer.binrequestMaxSize)
    (hpb : ∀ call ∈ added ops, pb.parseFromString (pb.serializeAsString call.toPb) = call.toPb)
    (cs : List Chunk)
    (hcs : (cs.map Chunk.bytes).flatten =
      (sendRun pb (Connection.new sock now r).1 ops).accepted.drop upgradeRequest.length) :
    (BinServer.Parser.receiveAll pb .init cs).thrown = none ∧
      (BinServer.Parser.receiveAll pb .init cs).outputs.map (Option.map callOf)
        <+: (added ops).map some ∧
      ((sendRun pb (Connection.new sock now r).1 ops).sendBuffer = [] →
        (BinServer.Parser.receiveAll pb .init cs).outputs.map (Option.map callOf)
          = (added ops).map some) := by
  obtain ⟨is, hstream, hmsgs, hall⟩ := Connection.sent_run pb (Connection.sent_new pb sock now r) ops
  rw [List.nil_append] at hmsgs
  -- what is accepted is a prefix of the stream; `rest` is what is still in the send buffer
  obtain ⟨rest, hrest, hdone⟩ := drop_prefix_of_append_eq hstream
  let rs := cs.map (fun c => (BinServer.Parser.reader pb c.junk, c.bytes))
  have hbytes : (rs.map Prod.snd).flatten ++ rest = Framing.encodeItems is := by
    rw [List.map_map, ← hrest]
    exact congrArg (· ++ rest) hcs
  have hsim : ∀ x ∈ rs, Reader.Simulates (BinServer.requests pb) BinServer.Parser.phase
      BinServer.Parser.curToken BinServer.Parser.Inv x.1 Framing.Alive := by
    intro x hx
    obtain ⟨c, _, rfl⟩ := List.mem_map.mp hx
    exact BinServer.Parser.reader_simulates pb c.junk
  have hhas : ∀ x ∈ rs, x.1.has = BinServer.Parser.hasRequest := by
    intro x hx
    obtain ⟨c, _, rfl⟩ := List.mem_map.mp hx
    rfl
  have hstuck : (BinServer.requests pb).Stuck BinServer.Parser.init.phase
      BinServer.Parser.init.curToken := BinServer.framing.stuck_size_nil.mapOut
  have hrun : (BinServer.requests pb).Runs BinServer.Parser.init.phase
      (BinServer.Parser.init.curToken ++ ((rs.map Prod.snd).flatten ++ rest))
      ((added ops).map (fun call => some (BinServer.Request.ofDump pb (buildRequest pb call)))) .size [] := by
    rw [hbytes]
    exact runs_items_requests hsize hmsgs hall
  obtain ⟨os, p, hrecv, _, hprefix, hend⟩ := Reader.receiveAll_of_runs (BinServer.requests_dead pb) hsim
    hhas BinServer.Parser.inv_init rfl hstuck hrun BinServer.framing.stuck_size_nil.mapOut
    (by simp [Framing.Alive])
  -- from dumps back to calls
  have hcalls : ((added ops).map (fun call =>
      some (BinServer.Request.ofDump pb (buildRequest pb call)))).map (Option.map callOf)
      = (added ops).map some := by
    rw [List.map_map]
    exact List.map_congr_left (fun call hcall => congrArg some (callOf_ofDump (hpb call hcall)))
  have hrecv' : BinServer.Parser.receiveAll pb .init cs = ⟨os, p, none⟩ := hrecv
  rw [hrecv', ← hcalls]
  refine ⟨rfl, hprefix.map _, fun hbuf => ?_⟩
  obtain ⟨rfl, _⟩ := hend (hdone hbuf)
  rfl

/-- The wire format of `Request.proto`, for fields shorter than 128 bytes: each is a tag, a length byte
    and the bytes of the field. -/
def shortWire : Protobuf where
  serializeAsString m :=
    field 10 m.method ++ m.params.flatMap (fun kv => field 18 (field 10 kv.1 ++ field 18 kv.2))
  parseFromString b :=
    let fs := fields b.length b
    ⟨get 10 fs, (fs.filter (·.1 == 18)).map (fun f =>
      let sub := fields f.2.length f.2
      (get 10 sub, get 18 sub))⟩
where
  field (tag : UInt8) (b : Bytes) : Bytes := tag :: UInt8.ofNat b.length :: b
  get (tag : UInt8) (fs : List (UInt8 × Bytes)) : Bytes := ((fs.find? (·.1 == tag)).map (·.2)).getD []
  fields : Nat → Bytes → List (UInt8 × Bytes)
    | fuel + 1, tag :: len :: b => (tag, b.take len.toNat) :: fields fuel (b.drop len.toNat)
    | _, _ => []

/-- A call whose parameter contains a newline and a keep-alive character. -/
def pingCall : Call := ⟨ascii "ping", (∅ : StrMap).insert (ascii "a") (ascii "1\nk")⟩

/-- Two requests with partial sends, and a keep-alive byte between them. -/
def pingOps : List SendOp :=
  [.performSend (.accepted 99), .addRequest 0 pingCall, .performSend (.accepted 2),
    .performSend (.accepted 99), .checkKeepAlive 100 (.accepted 0), .addRequest 1 pingCall,
    .performSend (.accepted 99)]

/-- The bytes that run puts on the wire after the upgrade request. -/
def pingWire : Bytes :=
  (sendRun shortWire (Connection.new 3 7 (.accepted 50)).1 pingOps).accepted.drop upgradeRequest.length

/-- The theorem at that run, received with a cut inside the first size line and one inside the second
    request. -/
theorem requests_survive_wire_keepalive :
    (BinServer.Parser.receiveAll shortWire .init [⟨pingWire.take 1, fun _ => 7⟩,
        ⟨(pingWire.drop 1).take 30, fun _ => 7⟩, ⟨pingWire.drop 31, fun _ => 7⟩]).outputs.map
      (Option.map callOf) = [some pingCall, some pingCall] :=
  (requests_survive_wire shortWire 3 7 (.accepted 50) pingOps (by decide) (by decide) _ (by decide)).2.2
    (by decide)

end BinClient
end Hiaux
