import Hiaux.BinClient.Correctness.Wire

/-!
# `BinClient.Correctness.SendBuffer` — the send buffer and a full socket

Bytes are appended to the send buffer by `addRequest` and `checkKeepAlive` and leave it through `send`.
Nothing is lost or written twice, whatever `send` answers (`stream_performAll`). A full socket is what the
methods do not stand: they go on with the result `-1` as a position in the buffer, and `substr` throws.
So the buffer behaves as it should along a run exactly when no `send` of it meets a full socket
(`sendBuffer_kept_iff`).
-/

namespace Hiaux
namespace BinClient
namespace Connection

open Lib Strings Network

/-- The operations on the send buffer. -/
inductive BufferOp where
  | addRequest (req : Request)
  | checkKeepAlive (now : Nat) (r : SendResult)
  | performSend (r : SendResult)
deriving DecidableEq, Repr

/-- One operation: the connection after it and the exception it threw. -/
def perform (op : BufferOp) (c : Connection) : Connection × Option ConnEx :=
  match op with
  | .addRequest req => (c.addRequest req, none)
  | .checkKeepAlive now r => c.checkKeepAlive now r
  | .performSend r => c.performSend r

/-- The condition under which `checkKeepAlive` sends a keep-alive. -/
def KeepAliveDue (now : Nat) (c : Connection) : Prop :=
  c.sendBuffer.length = 0 ∧ (now + 2 ^ 64 - c.lastActivityTs) % 2 ^ 64 > c.keepalivePeriod

instance (now : Nat) (c : Connection) : Decidable (KeepAliveDue now c) := by
  unfold KeepAliveDue
  infer_instance

theorem checkKeepAlive_due {now : Nat} {c : Connection} (h : KeepAliveDue now c) (r : SendResult) :
    checkKeepAlive now r c =
      performSend r { c with lastActivityTs := now, sendBuffer := c.sendBuffer ++ keepaliveMessage } :=
  if_pos h

theorem checkKeepAlive_notDue {now : Nat} {c : Connection} (h : ¬ KeepAliveDue now c) (r : SendResult) :
    checkKeepAlive now r c = (c, none) := if_neg h

/-- The bytes an operation appends to the buffer. -/
def appends (op : BufferOp) (c : Connection) : Bytes :=
  match op with
  | .addRequest req => frame req.data
  | .checkKeepAlive now _ => if KeepAliveDue now c then keepaliveMessage else []
  | .performSend _ => []

/-- The answer of the `send` an operation makes; none is made of an empty buffer. -/
def sends (op : BufferOp) (c : Connection) : Option SendResult :=
  match op with
  | .addRequest _ => none
  | .checkKeepAlive now r => if KeepAliveDue now c then some r else none
  | .performSend r => if c.sendBuffer.length = 0 then none else some r

/-- A run of operations, the connection left as a throwing one left it. -/
def performAll : Connection → List BufferOp → Connection := List.foldl (fun c op => (perform op c).1)

/-- All the bytes the operations of a run append. -/
def appendsAll : Connection → List BufferOp → Bytes
  | _, [] => []
  | c, op :: ops => appends op c ++ appendsAll (perform op c).1 ops

/-! ## Nothing is lost, nothing is written twice -/

/-- **One operation** leaves the stream with the bytes it appended behind. -/
theorem stream_perform (op : BufferOp) (c : Connection) :
    (perform op c).1.stream = c.stream ++ appends op c := by
  cases op with
  | addRequest req => exact stream_addRequest req c
  | checkKeepAlive now r =>
      show (checkKeepAlive now r c).1.stream = c.stream ++ (if KeepAliveDue now c then _ else _)
      by_cases hdue : KeepAliveDue now c
      · rw [checkKeepAlive_due hdue, if_pos hdue, stream_performSend]
        simp only [stream, List.append_assoc]
      · rw [checkKeepAlive_notDue hdue, if_neg hdue, List.append_nil]
  | performSend r =>
      show (performSend r c).1.stream = c.stream ++ []
      rw [stream_performSend, List.append_nil]

/-- **The whole run**: what the socket has accepted, then the buffer, is everything appended. -/
theorem stream_performAll (ops : List BufferOp) (c : Connection) :
    (performAll c ops).stream = c.stream ++ appendsAll c ops := by
  induction ops generalizing c with
  | nil => exact (List.append_nil _).symm
  | cons op ops ih =>
      show (performAll (perform op c).1 ops).stream = c.stream ++ (appends op c ++ _)
      rw [ih, stream_perform, List.append_assoc]

/-! ## Exceptions -/

/-- What `performSend` throws, and when. -/
theorem performSend_thrown (r : SendResult) (c : Connection) :
    (performSend r c).2 =
      if c.sendBuffer.length = 0 then none
      else match r with
        | .fatal => some .lostConnectionEx
        | .again => some .outOfRange
        | .accepted _ => none := by
  unfold performSend
  by_cases hempty : c.sendBuffer.length = 0
  · rw [if_pos hempty, if_pos hempty]
  · rw [if_neg hempty, if_neg hempty]
    cases r with
    | fatal => rfl
    | again => rfl
    | accepted n => exact apply_ite Prod.snd _ _ _ |>.trans (ite_self _)

/-- What an operation throws: what its `send` makes it throw. -/
theorem perform_thrown (op : BufferOp) (c : Connection) :
    (perform op c).2 =
      match sends op c with
      | some .fatal => some .lostConnectionEx
      | some .again => some .outOfRange
      | _ => none := by
  cases op with
  | addRequest req => rfl
  | checkKeepAlive now r =>
      show (checkKeepAlive now r c).2 = _
      rw [sends]
      by_cases hdue : KeepAliveDue now c
      · have hbuf : (c.sendBuffer ++ keepaliveMessage).length ≠ 0 := by
          rw [List.length_append]
          exact Nat.ne_of_gt (Nat.add_pos_right _ (by decide))
        rw [checkKeepAlive_due hdue, if_pos hdue, performSend_thrown, if_neg hbuf]
        cases r <;> rfl
      · rw [checkKeepAlive_notDue hdue, if_neg hdue]
  | performSend r =>
      show (performSend r c).2 = _
      rw [performSend_thrown, sends]
      by_cases hempty : c.sendBuffer.length = 0
      · rw [if_pos hempty, if_pos hempty]
      · rw [if_neg hempty, if_neg hempty]
        cases r <;> rfl

/-! ## The law of the send buffer -/

/-- An operation throws only when its `send` failed, and then `LostConnectionEx`; refused by a full socket
    it returns, the buffer as it was with what it appended. -/
def Tolerant (op : BufferOp) (c : Connection) : Prop :=
  (∀ e, (perform op c).2 = some e → sends op c = some .fatal ∧ e = .lostConnectionEx) ∧
    (sends op c = some .again →
      (perform op c).2 = none ∧ (perform op c).1.sendBuffer = c.sendBuffer ++ appends op c)

theorem tolerant_iff (op : BufferOp) (c : Connection) : Tolerant op c ↔ sends op c ≠ some .again := by
  constructor
  · rintro ⟨-, hagain⟩ hs
    have hnone := (hagain hs).1
    rw [perform_thrown, hs] at hnone
    exact absurd hnone (by simp)
  · intro hs
    refine ⟨?_, fun h => absurd h hs⟩
    intro e he
    rw [perform_thrown] at he
    rcases hr : sends op c with _ | _ | _ | _
    · rw [hr] at he
      exact absurd he (by simp)
    · rw [hr] at he
      exact absurd he (by simp)
    · exact absurd hr hs
    · rw [hr] at he
      exact ⟨rfl, (Option.some.inj he).symm⟩

/-- **The send buffer along a run.** Whatever is appended, sent and answered: at every point of the run the
    bytes the socket accepted followed by the buffer are all the bytes appended, and every operation is
    tolerant, exactly when no operation sends into a full socket. -/
theorem sendBuffer_kept_iff (c : Connection) (ops : List BufferOp) :
    (∀ pre op, pre ++ [op] <+: ops →
        (performAll c (pre ++ [op])).stream = c.stream ++ appendsAll c (pre ++ [op]) ∧
          Tolerant op (performAll c pre)) ↔
      ∀ pre op, pre ++ [op] <+: ops → sends op (performAll c pre) ≠ some .again := by
  constructor
  · intro h pre op hpre
    exact (tolerant_iff op _).mp (h pre op hpre).2
  · intro h pre op hpre
    exact ⟨stream_performAll _ c, (tolerant_iff op _).mpr (h pre op hpre)⟩

/-- **A full socket**: a connection whose upgrade request has been sent adds a request, and the socket
    takes nothing. `performSend` throws, and not `LostConnectionEx`. -/
theorem sendBuffer_fullSocket :
    ¬ ∀ pre op, pre ++ [op] <+: [BufferOp.addRequest ⟨0, ascii "a"⟩, .performSend .again] →
        (performAll (new 3 7 (.accepted 99)).1 (pre ++ [op])).stream =
            (new 3 7 (.accepted 99)).1.stream ++ appendsAll (new 3 7 (.accepted 99)).1 (pre ++ [op]) ∧
          Tolerant op (performAll (new 3 7 (.accepted 99)).1 pre) := by
  intro h
  have ht := (h [.addRequest ⟨0, ascii "a"⟩] (.performSend .again) (List.prefix_rfl)).2
  exact (tolerant_iff _ _).mp ht rfl

end Connection
end BinClient
end Hiaux
