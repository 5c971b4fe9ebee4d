import Hiaux.HttpServer.Connection

/-!
# `HttpServer.Correctness.Messages` — which completed messages become requests

`performRecv` looks once per call at one flag, which every completed message of that call sets, and only if
the call did not end with the end of the stream. So a call gives one request however many messages it
completed, assembled from all its callbacks, and none if the stream ended in it. And `onUrl` reads on to the next
space, behind a url that is followed by something else.

`completed` is what should be pushed: one request per `messageComplete`, each assembled from the callbacks
since the one before, and from the bytes that these are about (`Callback.own`). A run pushes exactly these if no
call completes a second message, starts on the next one, ends the stream together with a message, or brings a url
that does not end where its callback says (`CallOk`).
-/

namespace Hiaux
namespace HttpServer

open Lib Strings Network

/-- A callback with the bytes that it is about: those of a url are as many as its length says. -/
def Callback.own : Callback → Callback
  | .url memory length => .url (memory.take length) length
  | .messageBegin => .messageBegin
  | .status bytes => .status bytes
  | .headersField bytes => .headersField bytes
  | .headersValue bytes => .headersValue bytes
  | .headersComplete shouldKeepAlive => .headersComplete shouldKeepAlive
  | .body bytes => .body bytes
  | .messageComplete => .messageComplete

/-- A url that ends where its callback says: a space is behind it, or nothing more has been read. -/
def Callback.UrlEnds : Callback → Prop
  | .url memory length => ∀ b ∈ memory[length]?, b = 32
  | _ => True

/-- One request for each message the callbacks complete, from an assembly in progress. -/
def completed (curlUnescape : Bytes → Bytes) : Assembly → List Callback → List HttpRequest
  | _, [] => []
  | a, c :: cs =>
      if c = .messageComplete then
        a.curHttpRequest :: completed curlUnescape { a with curHttpRequest := .new } cs
      else completed curlUnescape (a.callback curlUnescape c.own) cs

/-- A callback that brings no part of a message's content. -/
def Callback.quiet : Callback → Bool
  | .messageBegin => true
  | .status _ => true
  | .headersComplete _ => true
  | .url _ _ => false
  | .headersField _ => false
  | .headersValue _ => false
  | .body _ => false
  | .messageComplete => false

section

variable {curlUnescape : Bytes → Bytes}

/-! ## What a callback is about -/

/-- **`onUrl` ignores the length**: it takes what the callback is about, if the url ends there. -/
theorem callback_own {c : Callback} (h : c.UrlEnds) (a : Assembly) :
    a.callback curlUnescape c.own = a.callback curlUnescape c := by
  cases c with
  | url memory length =>
      have hcut : Assembly.urlText (memory.take length) = Assembly.urlText memory := by
        cases hbehind : memory.drop length with
        | nil => rw [List.take_of_length_le (List.drop_eq_nil_iff.mp hbehind)]
        | cons b r =>
            have hget : memory[length]? = some b := by
              rw [← Nat.add_zero length, ← List.getElem?_drop, hbehind]
              rfl
            obtain rfl := h b hget
            have hsplit : memory = memory.take length ++ 32 :: r := by
              rw [← hbehind, List.take_append_drop]
            conv_rhs => rw [hsplit, Assembly.urlText, takeWhile_stop rfl]
            rfl
      rw [Callback.own, Assembly.callback, Assembly.callback, Assembly.onUrl_eq, Assembly.onUrl_eq, hcut]
  | _ => rfl

/-- A url with a line end behind it: bytes of the next line get into it. -/
example : ((⟨.new, [], true, false⟩ : Assembly).onUrl id (ascii "/x\r\nGE") 2).curHttpRequest.url =
    ascii "/x\r\nGE" := by decide

/-! ## What callbacks complete -/

/-- Only the request and the header name in progress matter. -/
theorem completed_congr {a b : Assembly} (hreq : a.curHttpRequest = b.curHttpRequest)
    (hfield : a.curHeaderField = b.curHeaderField) (cs : List Callback) :
    completed curlUnescape a cs = completed curlUnescape b cs := by
  induction cs generalizing a b with
  | nil => rfl
  | cons c cs ih =>
      unfold completed
      split
      · rw [hreq]
        exact congrArg _ (ih rfl hfield)
      · apply ih
        · cases c <;>
            simp [Callback.own, Assembly.callback, Assembly.onUrl, Assembly.onHeadersField, Assembly.onHeadersValue,
              Assembly.onHeadersComplete, Assembly.onBody, Assembly.onMessageComplete, hreq, hfield]
        · cases c <;>
            simp [Callback.own, Assembly.callback, Assembly.onUrl, Assembly.onHeadersField, Assembly.onHeadersValue,
              Assembly.onHeadersComplete, Assembly.onBody, Assembly.onMessageComplete, hfield]

/-- Callbacks without a completed message give no request. -/
theorem completed_of_not_mem {cs : List Callback} (hcs : .messageComplete ∉ cs) (a : Assembly) :
    completed curlUnescape a cs = [] := by
  induction cs generalizing a with
  | nil => rfl
  | cons c cs ih =>
      have hc : c ≠ .messageComplete := fun h => hcs (h ▸ List.mem_cons_self)
      rw [completed, if_neg hc, ih (fun h => hcs (List.mem_cons_of_mem c h))]

/-- They only advance the assembly. -/
theorem completed_append {cs : List Callback} (hcs : .messageComplete ∉ cs) (hends : ∀ c ∈ cs, c.UrlEnds)
    (ds : List Callback) (a : Assembly) :
    completed curlUnescape a (cs ++ ds) = completed curlUnescape (a.callbacks curlUnescape cs) ds := by
  induction cs generalizing a with
  | nil => rfl
  | cons c cs ih =>
      have hc : c ≠ .messageComplete := fun h => hcs (h ▸ List.mem_cons_self)
      rw [List.cons_append, completed, if_neg hc, callback_own (hends c List.mem_cons_self),
        ih (fun h => hcs (List.mem_cons_of_mem c h)) fun d hd => hends d (List.mem_cons_of_mem c hd)]
      rfl

variable (curlUnescape) in
/-- Quiet callbacks leave the request and the header name alone. -/
theorem callbacks_quiet {cs : List Callback} (hcs : ∀ c ∈ cs, c.quiet = true) (a : Assembly) :
    (a.callbacks curlUnescape cs).curHttpRequest = a.curHttpRequest ∧
      (a.callbacks curlUnescape cs).curHeaderField = a.curHeaderField ∧
      (a.callbacks curlUnescape cs).requestFinished = a.requestFinished := by
  induction cs generalizing a with
  | nil => exact ⟨rfl, rfl, rfl⟩
  | cons c cs ih =>
      have hc := hcs c List.mem_cons_self
      have hrest := ih (fun d hd => hcs d (List.mem_cons_of_mem c hd)) (a.callback curlUnescape c)
      cases c with
      | messageBegin => exact hrest
      | status b => exact hrest
      | headersComplete k => exact hrest
      | url m n => exact absurd hc (by simp [Callback.quiet])
      | headersField b => exact absurd hc (by simp [Callback.quiet])
      | headersValue b => exact absurd hc (by simp [Callback.quiet])
      | body b => exact absurd hc (by simp [Callback.quiet])
      | messageComplete => exact absurd hc (by decide)

/-- Without a completed message the flag stays as it is. -/
theorem callbacks_requestFinished {cs : List Callback} (hcs : .messageComplete ∉ cs) (a : Assembly) :
    (a.callbacks curlUnescape cs).requestFinished = a.requestFinished := by
  induction cs generalizing a with
  | nil => rfl
  | cons c cs ih =>
      have hrest := ih (fun h => hcs (List.mem_cons_of_mem c h)) (a.callback curlUnescape c)
      cases c with
      | messageComplete => exact absurd List.mem_cons_self hcs
      | _ => exact hrest

end

/-! ## Runs -/

variable {PS CP CR : Type}

namespace HttpConnection

/-- One call of `performRecv`: what the socket answers, and the time. -/
structure RecvCall where
  results : List RecvResult
  now : Nat

/-- The bytes a call receives. -/
def received : List RecvResult → Bytes
  | .data d :: rs => d ++ received rs
  | _ => []

/-- The callbacks that `http_parser` makes for the bytes of a call, and its state after them. -/
def parse (lib : Library PS CP CR) (ps : PS) (bytes : Bytes) : PS × List Callback :=
  if bytes.length > 0 then lib.httpParserExecute ps bytes else (ps, [])

/-- A run of calls. The server makes none on a connection that is not alive any more. -/
def recvRun (lib : Library PS CP CR) (c : HttpConnection PS CP CR) : List RecvCall → HttpConnection PS CP CR
  | [] => c
  | call :: calls =>
      if c.alive then recvRun lib (c.performRecv lib call.results call.now).1 calls else c

/-- The callbacks of `http_parser` on all bytes that the calls of a run receive. -/
def recvCallbacks (lib : Library PS CP CR) (ps : PS) : List RecvCall → List Callback
  | [] => []
  | call :: calls =>
      let (ps', cbs) := parse lib ps (received call.results)
      if (recvLoop [] call.results).isSome then cbs ++ recvCallbacks lib ps' calls else cbs

/-- A call that loses and mixes nothing: it completes at most one message and brings nothing of the next one, and
    its urls end where their callbacks say; or the stream ends in it, and it completes no message. -/
def CallOk (lib : Library PS CP CR) (c : HttpConnection PS CP CR) (call : RecvCall) : Prop :=
  let cbs := (parse lib c.parser (received call.results)).2
  if (recvLoop [] call.results).isSome then
    (.messageComplete ∉ cbs ∨
      ∃ cs ds, cbs = cs ++ .messageComplete :: ds ∧ .messageComplete ∉ cs ∧ ∀ d ∈ ds, d.quiet = true) ∧
    ∀ cb ∈ cbs, cb.UrlEnds
  else .messageComplete ∉ cbs

/-- Every call of the run is one that loses nothing. -/
def CallsOk (lib : Library PS CP CR) (c : HttpConnection PS CP CR) : List RecvCall → Prop
  | [] => True
  | call :: calls =>
      CallOk lib c call ∧
        (c.alive → CallsOk lib (c.performRecv lib call.results call.now).1 calls)

theorem recvLoop_eq_received {rs : List RecvResult} {readbf bytes : Bytes}
    (h : recvLoop readbf rs = some bytes) : bytes = readbf ++ received rs := by
  induction rs generalizing readbf with
  | nil =>
      cases h
      exact (List.append_nil _).symm
  | cons r rs ih =>
      cases r with
      | data d =>
          rw [ih h]
          simp [received]
      | again =>
          cases h
          exact (List.append_nil _).symm
      | interrupted => exact absurd h (by simp [recvLoop])
      | fatal => exact absurd h (by simp [recvLoop])
      | closed => exact absurd h (by simp [recvLoop])

/-- A connection between two calls. -/
structure Between (c : HttpConnection PS CP CR) : Prop where
  http : c.customProtocol = false
  unfinished : c.assembly.requestFinished = false

/-- The assembly and the parser after the bytes of a call. -/
theorem receiveHttp_eq (lib : Library PS CP CR) (now : Nat) (bytes : Bytes)
    (c : HttpConnection PS CP CR) :
    ∃ ts, receiveHttp lib now bytes c =
      let a := c.assembly.callbacks lib.curlUnescape (parse lib c.parser bytes).2
      let c' := { c with lastActivityTs := ts, parser := (parse lib c.parser bytes).1, assembly := a }
      if a.requestFinished then
        { c' with
          httpRequests := c.httpRequests ++ [a.curHttpRequest]
          assembly := { a with curHttpRequest := .new, requestFinished := false } }
      else c' := by
  unfold receiveHttp parse
  split
  · exact ⟨now, rfl⟩
  · exact ⟨c.lastActivityTs, rfl⟩

/-- **A call that loses nothing pushes what it completes**, and leaves the rest to the calls after it. -/
theorem performRecv_step {lib : Library PS CP CR} {c : HttpConnection PS CP CR} {call : RecvCall}
    (hc : Between c) (hok : CallOk lib c call) {bytes : Bytes}
    (hbytes : recvLoop [] call.results = some bytes) :
    let c' := (c.performRecv lib call.results call.now).1
    Between c' ∧ c'.alive = c.alive ∧ c'.parser = (parse lib c.parser (received call.results)).1 ∧
      ∃ reqs, c'.httpRequests = c.httpRequests ++ reqs ∧ ∀ cs,
        completed lib.curlUnescape c.assembly ((parse lib c.parser (received call.results)).2 ++ cs) =
          reqs ++ completed lib.curlUnescape c'.assembly cs := by
  have hrec : received call.results = bytes := by
    have h := recvLoop_eq_received hbytes
    rw [h, List.nil_append]
  have hperf : (c.performRecv lib call.results call.now).1 = receiveHttp lib call.now bytes c := by
    unfold performRecv
    rw [hbytes, hc.http]
    rfl
  obtain ⟨ts, heq⟩ := receiveHttp_eq lib call.now bytes c
  rw [hperf, heq, hrec]
  unfold CallOk at hok
  rw [hrec, hbytes] at hok
  obtain ⟨hnone | ⟨cs, ds, hcbs, hcs, hds⟩, hends⟩ := hok
  -- no message completed: the assembly goes on
  · have hfin : (c.assembly.callbacks lib.curlUnescape (parse lib c.parser bytes).2).requestFinished =
        false := by
      rw [callbacks_requestFinished hnone, hc.unfinished]
    simp only [hfin]
    exact ⟨⟨hc.http, hfin⟩, rfl, rfl, [], by simp, fun cs => completed_append hnone hends cs c.assembly⟩
  -- one message completed, and nothing of the next one seen
  · obtain ⟨hreq, hfield, hflag⟩ := callbacks_quiet lib.curlUnescape hds
      (c.assembly.callbacks lib.curlUnescape cs).onMessageComplete
    have hall : c.assembly.callbacks lib.curlUnescape (parse lib c.parser bytes).2 =
        (c.assembly.callbacks lib.curlUnescape cs).onMessageComplete.callbacks lib.curlUnescape ds := by
      rw [hcbs, Assembly.callbacks_append]
      rfl
    rw [← hall] at hreq hfield hflag
    have hfin : (c.assembly.callbacks lib.curlUnescape (parse lib c.parser bytes).2).requestFinished =
        true := hflag
    simp only [hfin, if_true]
    refine ⟨⟨hc.http, rfl⟩, trivial, trivial,
      [(c.assembly.callbacks lib.curlUnescape cs).curHttpRequest], ?_, ?_⟩
    · exact congrArg (c.httpRequests ++ [·]) hreq
    · intro rest
      have hquiet : .messageComplete ∉ ds := fun h => absurd (hds _ h) (by decide)
      rw [hcbs] at hfield hends ⊢
      have hbefore : ∀ cb ∈ cs, cb.UrlEnds := fun cb hcb => hends cb (List.mem_append_left _ hcb)
      have hbehind : ∀ cb ∈ ds, cb.UrlEnds := fun cb hcb =>
        hends cb (List.mem_append_right cs (List.mem_cons_of_mem _ hcb))
      rw [List.append_assoc, completed_append hcs hbefore, List.cons_append, completed, if_pos rfl,
        completed_append hquiet hbehind]
      refine congrArg (_ :: ·) (completed_congr ?_ ?_ rest)
      · exact (callbacks_quiet _ hds _).1
      · exact (callbacks_quiet _ hds _).2.1.trans hfield.symm

/-- A call in which the stream ends pushes nothing. -/
theorem performRecv_ended {lib : Library PS CP CR} {c : HttpConnection PS CP CR} {call : RecvCall}
    (hend : recvLoop [] call.results = none) :
    (c.performRecv lib call.results call.now).1 = { c with alive := false } := by
  unfold performRecv
  rw [hend]

theorem recvRun_of_not_alive (lib : Library PS CP CR) {c : HttpConnection PS CP CR} (h : c.alive = false)
    (calls : List RecvCall) : recvRun lib c calls = c := by
  cases calls with
  | nil => rfl
  | cons call calls =>
      unfold recvRun
      rw [h]
      rfl

/-- The run lemma, from any state between two calls. -/
theorem recvRun_pushes {lib : Library PS CP CR} {c : HttpConnection PS CP CR} {calls : List RecvCall}
    (hc : Between c) (halive : c.alive = true) (hok : CallsOk lib c calls) :
    (recvRun lib c calls).httpRequests =
      c.httpRequests ++ completed lib.curlUnescape c.assembly (recvCallbacks lib c.parser calls) := by
  induction calls generalizing c with
  | nil => exact (List.append_nil _).symm
  | cons call calls ih =>
      obtain ⟨hcall, hrest⟩ := hok
      unfold recvRun recvCallbacks
      rw [halive]
      cases hloop : recvLoop [] call.results with
      | none =>
          -- the peer has closed: this call pushes nothing, and there is no next one
          have hnone : .messageComplete ∉ (parse lib c.parser (received call.results)).2 := by
            rw [CallOk, hloop] at hcall
            exact hcall
          rw [if_pos rfl, performRecv_ended hloop, recvRun_of_not_alive lib rfl]
          simp [completed_of_not_mem hnone]
      | some bytes =>
          obtain ⟨hbetween, halive', hparser, reqs, hpushed, hcompleted⟩ := performRecv_step hc hcall hloop
          simp only [Option.isSome_some, if_true]
          rw [ih hbetween (halive'.trans halive) (hrest halive), hpushed, hcompleted, hparser,
            List.append_assoc]

/-- **No request is lost or merged in a run of such calls**: the requests pushed are, in order, one per
    message completed on the bytes received, each assembled from its own callbacks. -/
theorem performRecv_pushes_completed (lib : Library PS CP CR) (sock now : Nat) (calls : List RecvCall)
    (hok : CallsOk lib (new lib sock now) calls) :
    (recvRun lib (new lib sock now) calls).httpRequests =
      completed lib.curlUnescape ⟨.new, [], true, false⟩ (recvCallbacks lib lib.httpParserInit calls) :=
  recvRun_pushes ⟨rfl, rfl⟩ rfl hok

/-! ## Two requests in one read -/

/-- Two requests sent without waiting for the first response. -/
def twoGets : Bytes := ascii "GET /a HTTP/1.1\r\n\r\nGET /b HTTP/1.1\r\n\r\n"

/-- `http_parser` on the two requests, read at once: each url callback points into the read buffer. -/
def twoGetsLibrary : Library Unit Unit Unit where
  curlUnescape := id
  httpParserInit := ()
  httpParserExecute := fun _ bytes =>
    if bytes = twoGets then
      ((), [.messageBegin, .url (twoGets.drop 4) 2, .headersComplete true, .messageComplete,
        .messageBegin, .url (twoGets.drop 23) 2, .headersComplete true, .messageComplete])
    else ((), [])
  customParser := ⟨fun p _ => (p, none), fun _ => false, fun p => ((), p, none), fun _ => 0⟩
  respInfo := ⟨[], []⟩
  customProtocols := fun _ => none

/-- One call that reads them both. -/
def twoGetsCalls : List RecvCall := [⟨[.data twoGets, .again], 0⟩]

/-- Only one request is pushed for the two messages completed. -/
theorem twoGets_merged :
    (recvRun twoGetsLibrary (new twoGetsLibrary 5 0) twoGetsCalls).httpRequests ≠
      completed id ⟨.new, [], true, false⟩ (recvCallbacks twoGetsLibrary () twoGetsCalls) := by
  intro h
  have hlen := congrArg List.length h
  exact absurd hlen (by decide)

/-- One of the two requests, read alone. -/
def oneGet : Bytes := ascii "GET /a HTTP/1.1\r\n\r\n"

/-- `http_parser` on the single request. -/
def oneGetLibrary : Library Unit Unit Unit :=
  { twoGetsLibrary with
    httpParserExecute := fun _ bytes =>
      if bytes = oneGet then
        ((), [.messageBegin, .url (oneGet.drop 4) 2, .headersComplete true, .messageComplete])
      else ((), []) }

/-- The other one. -/
def otherGet : Bytes := ascii "GET /b HTTP/1.1\r\n\r\n"

/-- `http_parser` on the two requests, each read alone. -/
def apartLibrary : Library Unit Unit Unit :=
  { twoGetsLibrary with
    httpParserExecute := fun _ bytes =>
      if bytes = oneGet ∨ bytes = otherGet then
        ((), [.messageBegin, .url (bytes.drop 4) 2, .headersComplete true, .messageComplete])
      else ((), []) }

/-- A call for each of them. -/
def apartCalls : List RecvCall := [⟨[.data oneGet, .again], 0⟩, ⟨[.data otherGet, .again], 1⟩]

/-- Read apart, both requests are pushed. -/
theorem apart_pushed :
    (recvRun apartLibrary (new apartLibrary 5 0) apartCalls).httpRequests =
        completed id ⟨.new, [], true, false⟩ (recvCallbacks apartLibrary () apartCalls) ∧
      (completed id ⟨.new, [], true, false⟩ (recvCallbacks apartLibrary () apartCalls)).map HttpRequest.url =
        [ascii "/a", ascii "/b"] := by
  have hcall : ∀ (c : HttpConnection Unit Unit Unit) (get : Bytes) (now : Nat), get = oneGet ∨ get = otherGet →
      CallOk apartLibrary c ⟨[.data get, .again], now⟩ := by
    intro c get now hget
    have hparse : (parse apartLibrary c.parser (get ++ [])).2 =
        [.messageBegin, .url (get.drop 4) 2, .headersComplete true] ++ .messageComplete :: [] := by
      rcases hget with rfl | rfl <;> rfl
    refine ⟨Or.inr ⟨_, [], hparse, by simp, by simp⟩, ?_⟩
    have hurl : (Callback.url (get.drop 4) 2).UrlEnds := by
      intro b hb
      rcases hget with rfl | rfl <;> exact (Option.some.inj hb).symm
    show ∀ cb ∈ (parse apartLibrary c.parser (get ++ [])).2, cb.UrlEnds
    rw [hparse]
    exact List.forall_mem_cons.mpr ⟨trivial, List.forall_mem_cons.mpr ⟨hurl, by simp [Callback.UrlEnds]⟩⟩
  have hok : CallsOk apartLibrary (new apartLibrary 5 0) apartCalls :=
    ⟨hcall _ oneGet 0 (Or.inl rfl), fun _ => ⟨hcall _ otherGet 1 (Or.inr rfl), fun _ => trivial⟩⟩
  exact ⟨performRecv_pushes_completed apartLibrary 5 0 apartCalls hok, by decide⟩

end HttpConnection

end HttpServer
end Hiaux
