import Hiaux.HttpApi.HttpApi
import Hiaux.BinClient.Correctness.Framing

/-!
# `HttpApi.Correctness.BinaryReplies` — which replies on a binary connection are frames

Only the result of a synchronous method is sent as a frame; errors and the results of asynchronous methods
are rendered as HTTP responses, which are no frames: they start with a letter. A frame whose message is
longer than the client accepts is not read as a response either.
-/

namespace Hiaux

open Lib Strings HttpServer

/-! ## The client accepts short messages only -/

namespace BinClient
namespace ResponseParser

/-- The sizes and responses a parser holds are within the limit. -/
structure Bounded (p : ResponseParser) : Prop where
  size : p.state = .readingMessage → p.size ≤ messageSizeLimit
  response : p.gotResponse = true → p.curResponse.length ≤ messageSizeLimit

theorem Bounded.readMessage {p : ResponseParser} (h : Bounded p) : Bounded p.readMessage := by
  unfold ResponseParser.readMessage
  split
  · rename_i hm
    refine ⟨fun hs => absurd hs (by simp), fun _ => ?_⟩
    have hsize := h.size hm.1
    show (substr p.curToken 0 p.size).length ≤ messageSizeLimit
    rw [substr_zero]
    exact Nat.le_trans (List.length_take_le _ _) hsize
  · exact h

theorem Bounded.readSize {p : ResponseParser} (h : Bounded p) (junk : Junk) :
    Bounded (p.readSize junk).1 := by
  unfold ResponseParser.readSize
  split
  · rename_i hs
    split
    · exact h
    · dsimp only
      split
      · exact ⟨fun hm => absurd (hs.symm.trans hm) (by simp), h.response⟩
      · rename_i hsize
        refine Bounded.readMessage ⟨fun _ => ?_, h.response⟩
        exact Nat.le_of_not_lt hsize
  · exact h.readMessage

theorem Bounded.parse {p : ResponseParser} (h : Bounded p) (junk : Junk) : Bounded (p.parse junk).1 := by
  unfold ResponseParser.parse
  split
  · exact h
  · split
    · rename_i hs
      split
      · dsimp only
        split
        · exact ⟨fun hm => absurd (hs.symm.trans hm) (by simp), h.response⟩
        · have h' : Bounded { p with
              curToken := substr p.curToken handshakeMessage.length
                (p.curToken.length - handshakeMessage.length)
              state := .readingSize
              handshakedCalls := p.handshakedCalls + 1 } :=
            ⟨fun hm => ParserState.noConfusion hm, h.response⟩
          exact h'.readSize junk
      · exact h
    · exact h.readSize junk

/-- **No response is longer than the limit.** -/
theorem length_of_mem_receiveAll {cs : List Chunk} {m : Bytes} (hm : m ∈ (receiveAll init cs).outputs) :
    m.length ≤ messageSizeLimit := by
  have hkeeps : ∀ junk, (reader junk).Keeps Bounded (fun m => m.length ≤ messageSizeLimit) := by
    intro junk
    constructor
    · intro p d hp
      exact Bounded.parse (p := { p with curToken := p.curToken ++ d }) ⟨hp.size, hp.response⟩ junk
    · intro p hp hgot
      refine ⟨hp.response hgot, ?_⟩
      exact Bounded.parse (p := { p with gotResponse := false }) ⟨hp.size, fun h => Bool.noConfusion h⟩ junk
  have hinit : Bounded init := ⟨fun h => ParserState.noConfusion h, fun h => Bool.noConfusion h⟩
  have hall : ∀ c ∈ cs.map (fun c => (reader c.junk, c.bytes)),
      c.1.Keeps Bounded (fun m => m.length ≤ messageSizeLimit) := by
    intro c hc
    obtain ⟨c, -, rfl⟩ := List.mem_map.mp hc
    exact hkeeps c.junk
  exact Reader.outputs_receiveAll hall hinit m hm

end ResponseParser
end BinClient

/-! ## Frames and HTTP responses -/

namespace HttpServer

variable {PS CP CR : Type}

/-- The bytes that are queued on a connection for a reply, by `Server.addReply`. -/
def Reply.queuedBytes (info : ResponseInfo) (now : Nat) (c : HttpConnection PS CP CR) : Reply → Bytes
  | .http resp => c.renderResponse info now resp
  | .custom bytes => bytes

/-- An HTTP response is no frame: a frame starts with a digit. -/
theorem HttpConnection.renderResponse_ne_frame (info : ResponseInfo) (now : Nat) (resp : HttpResponse)
    (c : HttpConnection PS CP CR) (m : Bytes) : c.renderResponse info now resp ≠ frame m := by
  intro h
  have hhead : (c.renderResponse info now resp).head? = some 72 := by
    unfold renderResponse line
    simp only [List.append_assoc]
    rfl
  have hne := decimal_ne_nil m.length
  rw [h, frame, List.head?_append_of_ne_nil _ hne] at hhead
  exact absurd (decimal_isDigit (List.mem_of_head? hhead)) (by decide)

end HttpServer

/-! ## Replies of the API -/

namespace HttpApi
namespace Api

open BinClient

variable {PS CP CR : Type}

/-- The reply to a binary request, queued on the connection `c`, is one frame, and the client reads it as
    one response, whatever responses came before and in whatever chunks the bytes arrive. -/
def RepliesFrame (info : ResponseInfo) (now : Nat) (c : HttpConnection PS CP CR) (api : Api)
    (req : BinServer.Request) : Prop :=
  ∃ r, (api.handleBinary (some req)).replies.map (Reply.queuedBytes info now c) = [frame r] ∧
    ∀ (ms : List Bytes) (cs : List Chunk), (∀ m ∈ ms, m.length ≤ messageSizeLimit) →
      (cs.map Chunk.bytes).flatten = ResponseParser.serverStream ms ++ frame r →
      (ResponseParser.receiveAll .init cs).outputs = ms ++ [r] ∧
      (ResponseParser.receiveAll .init cs).thrown = none ∧
      (ResponseParser.receiveAll .init cs).reader.curToken = []

/-- When the reply is a frame: the fields pass the check, the method is not an asynchronous one, and its
    callback's response is not longer than the client accepts. -/
def AnsweredInFrame (api : Api) (req : BinServer.Request) : Prop :=
  api.checkFields (binaryParams req) = none ∧ api.isAsync req.method = false ∧
    ∃ onreq, api.methodsCallbacks[req.method]? = some onreq ∧
      (onreq (binaryParams req)).length ≤ messageSizeLimit

theorem getD_binaryParams_method (req : BinServer.Request) :
    (binaryParams req).getD (ascii "method") [] = req.method := by
  unfold binaryParams
  rw [Std.ExtTreeMap.getD_insert_self]

/-- The result of a synchronous method is sent as a frame. -/
theorem handleBinary_sync {api : Api} {req : BinServer.Request} {onreq : StrMap → Bytes}
    (hcheck : api.checkFields (binaryParams req) = none) (hasync : api.isAsync req.method = false)
    (honreq : api.methodsCallbacks[req.method]? = some onreq) :
    (api.handleBinary (some req)).replies = [.custom (frame (onreq (binaryParams req)))] := by
  unfold handleBinary handleRequest
  dsimp only
  rw [getD_binaryParams_method, hcheck]
  dsimp only
  rw [hasync, if_neg (by simp), honreq]
  simp [frame, newline, ascii]

/-- Everything else is sent as an HTTP response. -/
theorem handleBinary_http {api : Api} {req : BinServer.Request}
    (h : ¬ (api.checkFields (binaryParams req) = none ∧ api.isAsync req.method = false ∧
      ∃ onreq, api.methodsCallbacks[req.method]? = some onreq)) :
    ∀ r ∈ (api.handleBinary (some req)).replies, ∃ resp, r = .http resp := by
  unfold handleBinary handleRequest
  dsimp only
  rw [getD_binaryParams_method]
  split
  · simp
  · rename_i hcheck
    split
    · split
      · simp
      · simp [onAsyncCallDone]
    · rename_i hasync
      split
      · simp
      · rename_i onreq honreq
        exact absurd ⟨hcheck, by simpa using hasync, onreq, honreq⟩ h

/-- **When a binary connection is answered in frames.** -/
theorem repliesFrame_iff (info : ResponseInfo) (now : Nat) (c : HttpConnection PS CP CR) (api : Api)
    (req : BinServer.Request) : api.RepliesFrame info now c req ↔ api.AnsweredInFrame req := by
  constructor
  · rintro ⟨r, hbytes, hread⟩
    by_cases hsync : api.checkFields (binaryParams req) = none ∧ api.isAsync req.method = false ∧
        ∃ onreq, api.methodsCallbacks[req.method]? = some onreq
    · obtain ⟨hcheck, hasync, onreq, honreq⟩ := hsync
      refine ⟨hcheck, hasync, onreq, honreq, ?_⟩
      rw [handleBinary_sync hcheck hasync honreq] at hbytes
      -- the client cannot have read a message above its limit
      have hr : onreq (binaryParams req) = r := frame_injective (List.cons.inj hbytes).1
      obtain ⟨hout, -⟩ := hread [] [⟨ResponseParser.serverStream [] ++ frame r, fun _ => 0⟩] (by simp)
        (by simp)
      rw [hr]
      exact ResponseParser.length_of_mem_receiveAll (hout ▸ List.mem_append_right _ List.mem_cons_self)
    -- the one reply would be an HTTP response
    · obtain ⟨q, hq, hqr⟩ := List.map_eq_singleton_iff.mp hbytes
      obtain ⟨resp, rfl⟩ := handleBinary_http hsync q (by rw [hq]; exact List.mem_singleton_self q)
      exact absurd hqr (c.renderResponse_ne_frame info now resp r)
  · rintro ⟨hcheck, hasync, onreq, honreq, hlen⟩
    refine ⟨onreq (binaryParams req), by rw [handleBinary_sync hcheck hasync honreq]; rfl, ?_⟩
    intro ms cs hms hcs
    have hstream : ResponseParser.serverStream ms ++ frame (onreq (binaryParams req)) =
        ResponseParser.serverStream (ms ++ [onreq (binaryParams req)]) := by
      simp [ResponseParser.serverStream]
    obtain ⟨hout, hthrown, -, -, hbuf⟩ := ResponseParser.receiveAll_serverStream
      (ms ++ [onreq (binaryParams req)]) (by
        intro m hm
        rcases List.mem_append.mp hm with hm | hm
        · exact hms m hm
        · rw [List.mem_singleton.mp hm]
          exact hlen) cs (hcs.trans hstream)
    exact ⟨hout, hthrown, hbuf⟩

/-- An API without methods. -/
def noMethods : Api := .new id

/-- A request for a method it does not have. -/
def unknownRequest : BinServer.Request := ⟨ascii "ping", ∅, []⟩

/-- A connection that has been upgraded to the binary protocol. -/
def binaryConnection : HttpConnection Unit Unit Unit :=
  ⟨5, 0, 0, true, false, true, ascii "hiapi", true, ⟨.new, [], true, false⟩, [], [], [], [], [], (),
    some (), []⟩

/-- The reply to an unknown method is no frame. -/
theorem unknownRequest_no_frame :
    ¬ noMethods.RepliesFrame ⟨[], []⟩ 0 binaryConnection unknownRequest := by
  rintro ⟨r, hbytes, -⟩
  have hcheck : noMethods.checkFields (binaryParams unknownRequest) ≠ none := by decide +kernel
  obtain ⟨q, hq, hqr⟩ := List.map_eq_singleton_iff.mp hbytes
  obtain ⟨resp, rfl⟩ := handleBinary_http (fun h => hcheck h.1) q (by rw [hq]; exact List.mem_singleton_self q)
  exact absurd hqr (binaryConnection.renderResponse_ne_frame ⟨[], []⟩ 0 resp r)

end Api
end HttpApi
end Hiaux
