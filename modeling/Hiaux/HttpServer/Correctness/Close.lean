import Hiaux.HttpServer.Connection

/-!
# `HttpServer.Correctness.Close` — closing a connection that is not kept alive

`performSend` takes an empty buffer, once anything was ever sent, for the end of the exchange: with
`keepalive` off it gives the connection up before it looks at the queue of responses. That is the end only
for the first response. A connection that has answered a request, was kept alive, and is then asked to
close is given up with the answer to that last request still in the queue.
-/

namespace Hiaux
namespace HttpServer

open Lib Network

variable {PS CP CR : Type}

namespace HttpConnection

/-- What happens on a connection: a request's headers are complete, a response is added, or a send is
    attempted on a socket that takes `n + 1` bytes or is full. -/
inductive ExchangeOp where
  | headersComplete (shouldKeepAlive : Bool)
  | addResponse (resp : HttpResponse) (now : Nat)
  | performSend (n : Nat) (now : Nat)
  | performSendAgain (now : Nat)

/-- One operation. -/
def exchangeStep (info : ResponseInfo) (c : HttpConnection PS CP CR) : ExchangeOp → HttpConnection PS CP CR
  | .headersComplete k => { c with assembly := c.assembly.onHeadersComplete k }
  | .addResponse resp now => c.addResponse info now resp
  | .performSend n now => (c.performSend (.accepted n) now).1
  | .performSendAgain now => (c.performSend .again now).1

/-- A run of operations. -/
def exchangeRun (info : ResponseInfo) (c : HttpConnection PS CP CR) (ops : List ExchangeOp) :
    HttpConnection PS CP CR :=
  ops.foldl (exchangeStep info) c

/-- A response that has been added and not sent completely. -/
def Unsent (c : HttpConnection PS CP CR) : Prop := c.sendBuffer ≠ [] ∨ c.resps ≠ []

/-- **No response is cut off**: no operation of the run gives the connection up with a response unsent. -/
def NeverCutOff (info : ResponseInfo) (c : HttpConnection PS CP CR) (ops : List ExchangeOp) : Prop :=
  ∀ before op after, ops = before ++ op :: after →
    (exchangeRun info c before).alive = true → (exchangeRun info c before).Unsent →
      (exchangeStep info (exchangeRun info c before) op).alive = true

/-- Whether an operation attempts to send. -/
def ExchangeOp.sends : ExchangeOp → Bool
  | .headersComplete _ => false
  | .addResponse _ _ => false
  | .performSend _ _ => true
  | .performSendAgain _ => true

/-- A state in which the next response may be sent: once something was sent, a response is taken from the
    queue only while the connection is kept alive. -/
def MaySend (c : HttpConnection PS CP CR) : Prop :=
  c.sendBuffer = [] → c.resps ≠ [] → c.everSent = true → c.assembly.keepalive = true

/-- Every send of the run is attempted in such a state. -/
def SendsInTime (info : ResponseInfo) (c : HttpConnection PS CP CR) (ops : List ExchangeOp) : Prop :=
  ∀ before op after, ops = before ++ op :: after → op.sends = true →
    (exchangeRun info c before).alive = true → (exchangeRun info c before).MaySend

/-- A send that does not fail keeps the connection. -/
theorem sendBuffered_alive {r : SendResult} (hr : r ≠ .fatal) (now : Nat) (c : HttpConnection PS CP CR) :
    (sendBuffered r now c).1.alive = c.alive := by
  unfold sendBuffered
  cases r with
  | fatal => exact absurd rfl hr
  | again => rfl
  | accepted n =>
      dsimp only
      split
      · rfl
      · split <;> rfl

/-- **When `performSend` gives up a connection**: the buffer is empty, something was sent before, and the
    connection is not kept alive. -/
theorem performSend_alive_iff {r : SendResult} (hr : r ≠ .fatal) (now : Nat)
    {c : HttpConnection PS CP CR} (halive : c.alive = true) :
    (c.performSend r now).1.alive = true ↔
      (c.sendBuffer = [] → c.everSent = true → c.assembly.keepalive = true) := by
  unfold performSend
  by_cases hbuf : c.sendBuffer = []
  · rw [if_pos (by rw [hbuf]; rfl)]
    by_cases hclose : c.everSent = true ∧ ¬ c.assembly.keepalive = true
    · rw [if_pos hclose]
      simp [hbuf, hclose.1, hclose.2]
    · rw [if_neg hclose]
      have hkeep : c.everSent = true → c.assembly.keepalive = true := by
        intro he
        by_contra hk
        exact hclose ⟨he, hk⟩
      refine ⟨fun _ _ => hkeep, fun _ => ?_⟩
      split
      · exact halive
      · exact (sendBuffered_alive hr now _).trans halive
  · rw [if_neg (fun h => hbuf (List.eq_nil_of_length_eq_zero h))]
    refine ⟨fun _ h => absurd h hbuf, fun _ => ?_⟩
    exact (sendBuffered_alive hr now c).trans halive

/-- With a response unsent, a send keeps the connection exactly in a state that may send. -/
theorem performSend_keeps_iff {r : SendResult} (hr : r ≠ .fatal) (now : Nat)
    {c : HttpConnection PS CP CR} (halive : c.alive = true) (hunsent : c.Unsent) :
    (c.performSend r now).1.alive = true ↔ c.MaySend := by
  rw [performSend_alive_iff hr now halive]
  unfold MaySend
  constructor
  · exact fun h hbuf _ => h hbuf
  · intro h hbuf
    rcases hunsent with hne | hne
    · exact absurd hbuf hne
    · exact h hbuf hne

/-- **When no response is cut off.** In every run of requests, responses and sends without a fatal socket
    error, no response is cut off exactly if every send is attempted in a state that may send. -/
theorem neverCutOff_iff (info : ResponseInfo) (c : HttpConnection PS CP CR) (ops : List ExchangeOp) :
    NeverCutOff info c ops ↔ SendsInTime info c ops := by
  constructor
  · intro h before op after hops hsends halive hbuf hresps
    have hunsent : (exchangeRun info c before).Unsent := Or.inr hresps
    have hkept := h before op after hops halive hunsent
    cases op with
    | headersComplete k => exact absurd hsends (by simp [ExchangeOp.sends])
    | addResponse resp now => exact absurd hsends (by simp [ExchangeOp.sends])
    | performSend n now =>
        exact (performSend_keeps_iff (by simp) now halive hunsent).mp hkept hbuf hresps
    | performSendAgain now =>
        exact (performSend_keeps_iff (by simp) now halive hunsent).mp hkept hbuf hresps
  · intro h before op after hops halive hunsent
    cases op with
    | headersComplete k => exact halive
    | addResponse resp now => exact halive
    | performSend n now =>
        exact (performSend_keeps_iff (by simp) now halive hunsent).mpr (h before _ after hops rfl halive)
    | performSendAgain now =>
        exact (performSend_keeps_iff (by simp) now halive hunsent).mpr (h before _ after hops rfl halive)

/-- A request answered on a kept connection, then one that asks to close: its answer is added, and the
    send that should deliver it comes last. -/
def closingExchange : List ExchangeOp :=
  [.headersComplete true, .addResponse ⟨200, ascii "one", []⟩ 0, .performSend 1000 0,
    .headersComplete false, .addResponse ⟨200, ascii "two", []⟩ 0, .performSend 1000 0]

/-- A connection with nothing behind it. -/
def closingConnection : HttpConnection Unit Unit Unit :=
  ⟨5, 0, 0, true, false, false, [], false, ⟨.new, [], true, false⟩, [], [], [], [], [], (), none, []⟩

/-- The second answer is never sent. -/
theorem closingExchange_cut_off : ¬ NeverCutOff ⟨[], []⟩ closingConnection closingExchange := by
  intro h
  have hlast := h (closingExchange.take 5) (.performSend 1000 0) [] rfl (by decide +kernel)
    (Or.inr (by decide +kernel))
  exact absurd hlast (by decide +kernel)

end HttpConnection

end HttpServer
end Hiaux
