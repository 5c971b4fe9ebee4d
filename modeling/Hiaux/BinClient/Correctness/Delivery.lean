import Hiaux.BinClient.Correctness.Framing
import Hiaux.BinClient.Correctness.Requests
import Hiaux.Lib.Frames
import Hiaux.Lib.Run

/-!
# `BinClient.Correctness.Delivery` — which complete responses are lost

A call of `performRecv` collects what `recv` returns and hands it to the parser only when `recv` reports
`EAGAIN`; at the end of the stream, on an error and after `EINTR` the bytes collected are lost, and the
complete responses among them. Where the parser gets the bytes, `getResponse` parses on before it hands out
the response it has, so a size line above the limit costs the response in front of it.

These are the only two ways (`delivered_iff_in_time`). Between calls, either the parser waits where the last
of the responses finished ends (`InStep`), or the stream has come to something that is no frame, behind
responses that are all finished (`Derailed`).
-/

namespace Hiaux
namespace BinClient

open Lib Strings Network

theorem framing_skip (x : UInt8) : framing.skip x = false := rfl

namespace ResponseParser

variable (junk : Junk)

/-! ## Receiving up to a frame boundary -/

/-- The size line at the front of a buffer, if it is complete, is read as a size above the limit. -/
def oversized (rest : Bytes) : Bool :=
  (find newline rest).any fun n =>
    messageSizeLimit < stringToUint64 (junk (rest.drop (n + 1))) (rest.take n)

/-- **A parse reads one frame**: what the machine emits first is put into the slot. -/
theorem parse_frame {p : ResponseParser} (hinv : Inv p) (hgot : p.gotResponse = false) {m b : Bytes}
    (hrun : framing.machine.Runs p.phase p.curToken [m] .size b) :
    ∃ p', parse junk p = (p', none) ∧ Inv p' ∧ p'.gotResponse = true ∧ p'.curResponse = m ∧
      p'.curToken = b ∧ (p.state = .readingSize → b.length < p.curToken.length) := by
  obtain ⟨p', hparse, hinv', hstop, hlt⟩ :=
    parse_safe junk hinv hgot (hrun.safe_of_output framing.dead_outside_alive)
  rcases hstop with ⟨hhas, hrun'⟩ | ⟨hhas, hrun', hstuck⟩
  · have hphase : p'.phase = .size := by
      rw [phase, hinv'.boundary hhas]
    rw [hphase] at hrun'
    have hsame : p'.curResponse = m ∧ p'.curToken = b := by
      rcases hrun'.comparable hrun with ⟨os, hos, hrest⟩ | ⟨os, hos, hrest⟩
      · obtain ⟨rfl, rfl⟩ := List.cons.inj hos
        exact ⟨rfl, (Framing.runs_size_silent framing_skip hrest).symm⟩
      · obtain ⟨rfl, rfl⟩ := List.cons.inj hos
        exact ⟨rfl, Framing.runs_size_silent framing_skip hrest⟩
    obtain ⟨hresp, rfl⟩ := hsame
    exact ⟨p', hparse, hinv', hhas, hresp, rfl, fun hst => hlt hst hhas⟩
  · -- the machine is not stuck before it has emitted the message
    rcases hrun'.comparable hrun with ⟨os, rfl, hrest⟩ | ⟨os, hos, -⟩
    · exact absurd (hrest.of_stuck hstuck).1 (by simp)
    · exact absurd hos (by simp)

/-- At a frame boundary, a parse throws if the next size line is oversized. -/
theorem parse_thrown {p : ResponseParser} (hst : p.state = .readingSize) :
    (parse junk p).2.isSome = oversized junk p.curToken := by
  unfold parse
  split
  · rename_i hnil
    rw [List.length_eq_zero_iff.mp hnil]
    rfl
  · rw [if_neg (by rw [hst]; decide), readSize, if_pos hst]
    cases hfind : find newline p.curToken with
    | none => simp [oversized, hfind]
    | some n =>
        have hlen : (p.curToken.take n).length = n := List.length_take_of_le (find_lt_length hfind).le
        simp only [oversized, hfind, Option.any_some, substr_zero, hlen]
        rw [substr_of_le (by omega)]
        split
        · rename_i hlarge
          exact (decide_eq_true hlarge).symm
        · rename_i hsmall
          exact (decide_eq_false hsmall).symm

/-- **Draining up to a frame boundary**: the response in the slot and the frames behind it are delivered,
    unless the size line after the last of them is oversized; then the last is fetched by the call that
    throws. -/
theorem drainLoop_frames {ms : List Bytes} : ∀ {p : ResponseParser} {fuel : Nat} {rest : Bytes}, Inv p →
    p.gotResponse = true → framing.machine.Runs .size p.curToken ms .size rest → p.curToken.length < fuel →
    (oversized junk rest = true → ((reader junk).drainLoop fuel p).outputs = (p.curResponse :: ms).dropLast ∧
      ((reader junk).drainLoop fuel p).thrown.isSome = true) ∧
    (oversized junk rest = false → p.curResponse :: ms <+: ((reader junk).drainLoop fuel p).outputs) := by
  induction ms with
  | nil =>
      intro p fuel rest hinv hgot hrun hfuel
      obtain rfl := Framing.runs_size_silent framing_skip hrun
      obtain ⟨fuel, rfl⟩ := Nat.exists_eq_succ_of_ne_zero (Nat.ne_zero_of_lt hfuel)
      have hthrown := parse_thrown junk (p := { p with gotResponse := false }) (hinv.boundary hgot)
      have hhas : (reader junk).has p = true := hgot
      have hget : (reader junk).get p = (p.curResponse, parse junk { p with gotResponse := false }) := rfl
      rw [Reader.drainLoop, if_pos hhas, hget]
      generalize parse junk { p with gotResponse := false } = parsed at hthrown
      obtain ⟨p', thrown⟩ := parsed
      cases thrown with
      | none => exact ⟨fun hover => absurd (hthrown.trans hover) (by simp), fun _ => ⟨_, rfl⟩⟩
      | some e => exact ⟨fun _ => ⟨rfl, rfl⟩, fun hover => absurd (hthrown.trans hover) (by simp)⟩
  | cons m ms ih =>
      intro p fuel rest hinv hgot hrun hfuel
      obtain ⟨fuel, rfl⟩ := Nat.exists_eq_succ_of_ne_zero (Nat.ne_zero_of_lt hfuel)
      obtain ⟨b, hnext, hrest⟩ := Framing.nextFrame_of_runs framing_skip hrun
      -- the call that fetches the response puts the next one into the slot
      have hinv' : Inv { p with gotResponse := false } :=
        ⟨hinv.size_pos, fun h => absurd h (by simp), hinv.handshaked⟩
      have hphase : phase { p with gotResponse := false } = .size := by
        simp only [phase, hinv.boundary hgot]
      have hfirst : framing.machine.Runs (phase { p with gotResponse := false }) p.curToken [m] .size b := by
        rw [hphase]
        exact Framing.runs_nextFrame framing_skip hnext
      obtain ⟨p', hparse, hinv₁, hgot₁, hresp, rfl, hlt⟩ :=
        parse_frame junk (p := { p with gotResponse := false }) hinv' rfl hfirst
      have hlt' : p'.curToken.length < p.curToken.length := hlt (hinv.boundary hgot)
      obtain ⟨hover, hwithin⟩ := ih hinv₁ hgot₁ hrest (show p'.curToken.length < fuel by omega)
      have hhas : (reader junk).has p = true := hgot
      have hget : (reader junk).get p = (p.curResponse, p', none) := by
        show (p.curResponse, parse junk { p with gotResponse := false }) = _
        rw [hparse]
      rw [Reader.drainLoop, if_pos hhas, hget]
      rw [hresp] at hover hwithin
      refine ⟨fun ho => ?_, fun ho => List.cons_prefix_cons.mpr ⟨rfl, hwithin ho⟩⟩
      obtain ⟨houtputs, hthrown⟩ := hover ho
      exact ⟨congrArg (p.curResponse :: ·) houtputs, hthrown⟩

/-- **Receiving up to a frame boundary.** -/
theorem receive_frames {p : ResponseParser} (hinv : Inv p) (hgot : p.gotResponse = false) {d m rest : Bytes}
    {ms : List Bytes} (hrun : framing.machine.Runs p.phase (p.curToken ++ d) (m :: ms) .size rest) :
    (oversized junk rest = true → ((reader junk).receive p d).outputs = (m :: ms).dropLast ∧
      ((reader junk).receive p d).thrown.isSome = true) ∧
    (oversized junk rest = false → m :: ms <+: ((reader junk).receive p d).outputs) := by
  obtain ⟨b, hfirst, hrest⟩ := Framing.runs_cons hrun
  have hinv' : Inv { p with curToken := p.curToken ++ d } := ⟨hinv.size_pos, hinv.boundary, hinv.handshaked⟩
  obtain ⟨p', hparse, hinv₁, hgot₁, hresp, rfl, -⟩ :=
    parse_frame junk (p := { p with curToken := p.curToken ++ d }) hinv' hgot hfirst
  have hexec : (reader junk).execute p d = (p', none) := hparse
  have hreceive : (reader junk).receive p d = (reader junk).drainLoop (p'.curToken.length + 1) p' := by
    rw [Reader.receive, hexec]
    rfl
  rw [hreceive, ← hresp]
  exact drainLoop_frames junk hinv₁ hgot₁ hrest (Nat.lt_succ_self _)

/-- A size line read as a size above the limit is none the machine goes on from. -/
theorem not_alive_of_oversized {rest c : Bytes} {os : List Bytes} {t : Framing.Phase}
    (hover : oversized junk rest = true) (hrun : framing.machine.Runs .size rest os t c)
    (hstuck : framing.machine.Stuck t c) : ¬ Framing.Alive t := by
  intro halive
  obtain ⟨n, hn, hlarge⟩ := (Option.any_eq_true _ _).mp hover
  have hstep := framing.step_size_of_not_skip (b := rest) (fun x _ => framing_skip x)
  rw [hn, Option.map_some] at hstep
  obtain ⟨hphase, -⟩ := hrun.ok_of_step framing.dead_outside_alive hstuck halive hstep
  obtain ⟨size, hread, hlimit, -⟩ := framing.sizePhase_alive hphase
  have hsize : stringToUint64 (junk (rest.drop (n + 1))) (rest.take n) = size := by
    rw [stringToUint64, show scanU64 (rest.take n) = some size from hread]
    rfl
  have hlt : messageSizeLimit < size := by simpa [hsize] using hlarge
  exact absurd hlimit (Nat.not_le.mpr hlt)

end ResponseParser

/-! ## Receiving on one connection -/

/-- The bytes that a sequence of `recv` calls returns before its first other result. -/
def arrived : List RecvResult → Bytes
  | .data d :: rs => d ++ arrived rs
  | _ => []

/-- The first result that is no data. A kernel with nothing more to report reports `EAGAIN`. -/
def lastResult : List RecvResult → RecvResult
  | [] => .again
  | .data _ :: rs => lastResult rs
  | r :: _ => r

namespace Connection

theorem recvLoop_again {rs : List RecvResult} (h : lastResult rs = .again) (readbf : Bytes) :
    recvLoop readbf rs = .bytes (readbf ++ arrived rs) := by
  fun_induction lastResult rs generalizing readbf with
  | case1 => simp [recvLoop, arrived]
  | case2 d rs ih => rw [recvLoop, ih h, arrived, List.append_assoc]
  | case3 r rs hdata =>
      obtain rfl := h
      simp [recvLoop, arrived]

/-- When the receive loop does not end with `EAGAIN`, the bytes it has read are lost with its buffer. -/
theorem recvLoop_not_again {rs : List RecvResult} (h : lastResult rs ≠ .again) (readbf : Bytes) :
    recvLoop readbf rs = .lost ∨ recvLoop readbf rs = .hang := by
  fun_induction lastResult rs generalizing readbf with
  | case1 => exact absurd rfl h
  | case2 d rs ih => exact ih h (readbf ++ d)
  | case3 r rs hdata =>
      cases r with
      | data d => exact absurd rfl (hdata d)
      | again => exact absurd rfl h
      | interrupted => exact Or.inr rfl
      | fatal => exact Or.inl rfl
      | closed => exact Or.inl rfl

/-- **What a call that reads everything does**: the responses the parser gives are paired with the requests
    at the front of the queue. -/
theorem performRecv_again (junk : Junk) {rs : List RecvResult} (h : lastResult rs = .again) (c : Connection) :
    (c.performRecv junk rs).finished = c.sentRequests.zip (c.parsed junk (arrived rs)).outputs ∧
      (c.performRecv junk rs).conn.parser = (c.parsed junk (arrived rs)).reader ∧
      ((c.performRecv junk rs).undefined = false →
        (c.performRecv junk rs).thrown = (c.parsed junk (arrived rs)).thrown.map ConnEx.parser ∧
        (c.parsed junk (arrived rs)).outputs.length ≤ c.sentRequests.length) := by
  rw [performRecv, recvLoop_again h, List.nil_append]
  dsimp only
  rw [afterRecv_eq]
  refine ⟨rfl, rfl, fun hdefined => ?_⟩
  have hlen := of_decide_eq_false hdefined
  exact ⟨if_neg hlen, Nat.not_lt.mp hlen⟩

/-- A call that does not read everything finishes nothing, and does not come back with the connection. -/
theorem performRecv_not_again (junk : Junk) {rs : List RecvResult} (h : lastResult rs ≠ .again)
    (c : Connection) : (c.performRecv junk rs).finished = [] ∧
      ((c.performRecv junk rs).thrown.isSome || (c.performRecv junk rs).undefined) = true := by
  unfold performRecv
  rcases recvLoop_not_again h [] with hloop | hloop <;>
  · rw [hloop]
    exact ⟨rfl, rfl⟩

end Connection

/-! ## Sessions -/

/-- What happens to a connection. -/
inductive Op where
  | addRequest (req : Request)
  | performSend (r : SendResult)
  | checkKeepAlive (now : Nat) (r : SendResult)
  | performRecv (junk : Junk) (rs : List RecvResult)

/-- A connection from its beginning: the requests added to it, the bytes received on it, and the calls
    `onFinished(true, r)` it has made. It has ended when it is reported lost, or when a call does not come
    back. -/
structure Session where
  conn : Connection
  added : List Request
  received : Bytes
  finished : List (Request × Bytes)
  ended : Bool

namespace Session

open ResponseParser (oversized)

/-- A connection whose first send has been accepted. -/
def new (sock now n : Nat) : Session := ⟨(Connection.new sock now (.accepted n)).1, [], [], [], false⟩

/-- What one operation does. A lost connection is reported by `performSend` and `performRecv`; the client
    does not catch what `checkKeepAlive` throws, and keeps the connection. -/
def perform (s : Session) : Op → Session
  | .addRequest req => { s with conn := s.conn.addRequest req, added := s.added ++ [req] }
  | .performSend r =>
      { s with conn := (s.conn.performSend r).1, ended := (s.conn.performSend r).2 = some .lostConnectionEx }
  | .checkKeepAlive now r => { s with conn := (s.conn.checkKeepAlive now r).1 }
  | .performRecv junk rs =>
      let out := s.conn.performRecv junk rs
      ⟨out.conn, s.added, s.received ++ arrived rs, s.finished ++ out.finished,
        out.thrown.isSome || out.undefined⟩

/-- One step. -/
def step (s : Session) (op : Op) : Option Session := if s.ended then none else some (s.perform op)

/-- Every response that has been received completely is delivered: whatever complete frames the stream
    begins with, as many as there are requests, the first requests have been finished with their messages. -/
def Delivered (s : Session) : Prop :=
  ∀ ms rest, framing.Carries s.received ms rest → ms.length ≤ s.added.length → s.added.zip ms <+: s.finished

/-- If a call of `performRecv` completes the response to an outstanding request, it ends with `EAGAIN`, and
    what follows the last complete response is no size line above the limit; unless no request is
    outstanding for that response. -/
def InTime (s : Session) : Op → Prop
  | .performRecv junk rs =>
      s.ended = false →
      (framing.frames s.received).1.length < (framing.frames (s.received ++ arrived rs)).1.length →
      (framing.frames s.received).1.length < s.added.length →
        lastResult rs = .again ∧
          (oversized junk (framing.frames (s.received ++ arrived rs)).2 = true →
            s.added.length < (framing.frames (s.received ++ arrived rs)).1.length)
  | _ => True

/-! ## The invariant -/

/-- The responses received are those finished, and the parser waits where the last of them ends. -/
structure InStep (s : Session) : Prop where
  inv : s.conn.parser.Inv
  taken : s.conn.parser.gotResponse = false
  runs : framing.machine.Runs .preamble s.received (s.finished.map Prod.snd) s.conn.parser.phase
    s.conn.parser.curToken
  stuck : framing.machine.Stuck s.conn.parser.phase s.conn.parser.curToken

/-- The stream has come to something that is no frame, behind responses that are all finished. -/
def Derailed (s : Session) : Prop :=
  ∃ os c, framing.machine.Runs .preamble s.received os .failed c ∧ os <+: s.finished.map Prod.snd

/-- The requests added are those finished, and those awaiting their response; a connection that has not
    ended owes nobody a response it has received. -/
structure Inv (s : Session) : Prop where
  split : s.finished.map Prod.fst ++ s.conn.sentRequests = s.added
  place : s.ended = false → InStep s ∨ Derailed s

variable {s t : Session} {junk : Junk} {rs : List RecvResult}

/-- Whether everything is delivered can be seen from the frames of the stream. -/
theorem Inv.delivered_iff (h : Inv s) :
    Delivered s ↔ (framing.frames s.received).1.take s.added.length <+: s.finished.map Prod.snd := by
  have hfst : s.finished.map Prod.fst <+: s.added := ⟨_, h.split⟩
  constructor
  · intro hdelivered
    by_cases hpre : framing.preamble <+: s.received
    · obtain ⟨rest, hcarries⟩ := Framing.carries_take hpre s.added.length
      have hlen : ((framing.frames s.received).1.take s.added.length).length ≤ s.added.length :=
        List.length_take_le _ _
      exact (zip_prefix_iff hfst hlen).mp (hdelivered _ rest hcarries hlen)
    · rw [Framing.frames, if_neg hpre, List.take_nil]
      exact List.nil_prefix
  · intro hframes ms rest hcarries hlen
    have hfirst : ms <+: (framing.frames s.received).1.take s.added.length := by
      rw [← List.take_of_length_le hlen]
      exact (hcarries.initial framing_skip).take _
    exact (zip_prefix_iff hfst hlen).mpr (hfirst.trans hframes)

/-- The responses of a stream that has run into something, or waits. -/
theorem frames_eq {stream c : Bytes} {os : List Bytes} {u : Framing.Phase}
    (hrun : framing.machine.Runs .preamble stream os u c) (hstuck : framing.machine.Stuck u c) :
    (framing.frames stream).1 = os := Framing.frames_of_runs framing_skip hrun hstuck

/-- **In step or derailed, everything is delivered.** -/
theorem Inv.delivered (h : Inv s) (hplace : InStep s ∨ Derailed s) : Delivered s := by
  rw [h.delivered_iff]
  rcases hplace with hin | ⟨os, c, hrun, hos⟩
  · rw [frames_eq hin.runs hin.stuck]
    exact List.take_prefix _ _
  · rw [frames_eq hrun rfl]
    exact (List.take_prefix _ _).trans hos

/-! ## One receive -/

/-- The machine comes to the end of the last frame received. -/
theorem InStep.runs_frames (h : InStep s) {d : Bytes} {os : List Bytes} (hne : os ≠ [])
    (hframes : (framing.frames (s.received ++ d)).1 = s.finished.map Prod.snd ++ os) :
    framing.machine.Runs s.conn.parser.phase (s.conn.parser.curToken ++ d) os .size
      (framing.frames (s.received ++ d)).2 := by
  have hpre : framing.preamble <+: s.received ++ d := by
    by_contra hnot
    rw [Framing.frames, if_neg hnot] at hframes
    exact hne (List.append_eq_nil_iff.mp hframes.symm).2
  obtain ⟨hall, -⟩ := Framing.runs_frames framing_skip hpre
  rw [hframes] at hall
  rcases (h.runs.append_input d).comparable hall with ⟨os', heq, hrun⟩ | ⟨os', heq, -⟩
  · obtain rfl := List.append_cancel_left heq
    exact hrun
  · have hnil : os ++ os' = [] := by
      rwa [List.append_assoc, List.self_eq_append_right] at heq
    exact absurd (List.append_eq_nil_iff.mp hnil).1 hne

/-- **What the parser makes of the bytes received**, with the responses `os` completed by them: all of
    them; or, where the stream has come to something that is no frame, at least them, or, where that is a
    size line above the limit, all but the last. -/
theorem InStep.parsed (h : InStep s) (junk : Junk) {d c : Bytes} {os : List Bytes} {u : Framing.Phase}
    (hrun : framing.machine.Runs s.conn.parser.phase (s.conn.parser.curToken ++ d) os u c)
    (hstuck : framing.machine.Stuck u c) :
    (¬ (os ≠ [] ∧ oversized junk (framing.frames (s.received ++ d)).2 = true) ∧
      ∃ p, s.conn.parsed junk d = ⟨os, p, none⟩ ∧ p.Inv ∧ p.gotResponse = false ∧ p.phase = u ∧
        p.curToken = c) ∨
    (u = .failed ∧ ¬ (os ≠ [] ∧ oversized junk (framing.frames (s.received ++ d)).2 = true) ∧
      os <+: (s.conn.parsed junk d).outputs) ∨
    (u = .failed ∧ os ≠ [] ∧ oversized junk (framing.frames (s.received ++ d)).2 = true ∧
      (s.conn.parsed junk d).outputs = os.dropLast ∧ (s.conn.parsed junk d).thrown.isSome = true) := by
  have hframes : (framing.frames (s.received ++ d)).1 = s.finished.map Prod.snd ++ os :=
    frames_eq ((h.runs.append_input d).trans hrun) hstuck
  by_cases hnil : d.length = 0
  -- nothing received: the drain finds the slot empty
  · obtain rfl : d = [] := List.length_eq_zero_iff.mp hnil
    rw [List.append_nil] at hrun
    obtain ⟨rfl, rfl, rfl⟩ := hrun.of_stuck h.stuck
    have hparsed : s.conn.parsed junk [] = ⟨[], s.conn.parser, none⟩ := by
      have htaken : (ResponseParser.reader junk).has s.conn.parser = false := h.taken
      rw [Connection.parsed, if_neg (by simp), Reader.drain]
      show Reader.drainLoop _ (s.conn.parser.curToken.length + 1) _ = _
      rw [Reader.drainLoop, htaken]
      rfl
    exact Or.inl ⟨fun hover => hover.1 rfl, s.conn.parser, hparsed, h.inv, h.taken, rfl, rfl⟩
  have hreceive : s.conn.parsed junk d = (ResponseParser.reader junk).receive s.conn.parser d :=
    if_pos (Nat.pos_of_ne_zero hnil)
  rw [hreceive]
  by_cases halive : Framing.Alive u
  · refine Or.inl ⟨?_, Reader.receive_of_runs (ResponseParser.reader_simulates junk) h.inv h.taken hrun hstuck
      halive⟩
    rintro ⟨hne, hover⟩
    -- the machine would have stopped at the size line
    obtain ⟨os', -, hrest⟩ := (h.runs_frames hne hframes).extend hrun hstuck
    exact ResponseParser.not_alive_of_oversized junk hover hrest hstuck halive
  · obtain rfl : u = .failed := not_not.mp halive
    cases os with
    | nil => exact Or.inr (Or.inl ⟨rfl, fun hover => hover.1 rfl, List.nil_prefix⟩)
    | cons m ms =>
        obtain ⟨hlarge, hwithin⟩ :=
          ResponseParser.receive_frames junk h.inv h.taken (h.runs_frames (by simp) hframes)
        cases hover : oversized junk (framing.frames (s.received ++ d)).2 with
        | true => exact Or.inr (Or.inr ⟨rfl, by simp, rfl, hlarge hover⟩)
        | false => exact Or.inr (Or.inl ⟨rfl, fun h => absurd h.2 (by simp), hwithin hover⟩)

/-- The responses a call completes are those behind the ones finished. -/
theorem InStep.exists_run (h : InStep s) (d : Bytes) :
    ∃ os u c, framing.machine.Runs s.conn.parser.phase (s.conn.parser.curToken ++ d) os u c ∧
      framing.machine.Stuck u c ∧
      framing.machine.Runs .preamble (s.received ++ d) (s.finished.map Prod.snd ++ os) u c ∧
      (framing.frames (s.received ++ d)).1 = s.finished.map Prod.snd ++ os := by
  obtain ⟨os, u, c, hrun, hstuck⟩ :=
    framing.machine.exists_runs_stuck s.conn.parser.phase (s.conn.parser.curToken ++ d)
  have hall := (h.runs.append_input d).trans hrun
  exact ⟨os, u, c, hrun, hstuck, hall, frames_eq hall hstuck⟩

theorem Inv.length_added (h : Inv s) :
    s.added.length = (s.finished.map Prod.snd).length + s.conn.sentRequests.length := by
  rw [← h.split, List.length_append, List.length_map, List.length_map]

/-- The condition on a call, by the responses it completes. -/
theorem Inv.inTime_iff (h : Inv s) (hend : s.ended = false) (hin : InStep s) {os : List Bytes}
    (hframes : (framing.frames (s.received ++ arrived rs)).1 = s.finished.map Prod.snd ++ os) :
    InTime s (.performRecv junk rs) ↔ (os ≠ [] → s.conn.sentRequests ≠ [] →
      lastResult rs = .again ∧ (oversized junk (framing.frames (s.received ++ arrived rs)).2 = true →
        s.conn.sentRequests.length < os.length)) := by
  simp only [InTime, hend, hframes, frames_eq hin.runs hin.stuck, h.length_added, List.length_append,
    Nat.lt_add_right_iff_pos, Nat.add_lt_add_iff_left, List.length_pos_iff, forall_const]

/-- Everything is delivered if the call finishes requests with the responses it completes. -/
theorem Inv.delivered_performRecv_iff (h : Inv s) (hnew : Inv (s.perform (.performRecv junk rs)))
    {os : List Bytes}
    (hframes : (framing.frames (s.received ++ arrived rs)).1 = s.finished.map Prod.snd ++ os) :
    Delivered (s.perform (.performRecv junk rs)) ↔
      os.take s.conn.sentRequests.length <+: (s.conn.performRecv junk rs).finished.map Prod.snd := by
  have hlen := h.length_added
  rw [hnew.delivered_iff]
  show (framing.frames (s.received ++ arrived rs)).1.take s.added.length <+:
    (s.finished ++ (s.conn.performRecv junk rs).finished).map Prod.snd ↔ _
  rw [hframes, List.map_append, take_append_prefix_append_iff (by omega), hlen, Nat.add_sub_cancel_left]

/-- A list without its last entry begins like it, up to there. -/
theorem take_prefix_take_dropLast_iff {os : List Bytes} (hne : os ≠ []) (q : Nat) :
    os.take q <+: os.dropLast.take q ↔ q < os.length := by
  have hpos := List.length_pos_iff.mpr hne
  constructor
  · intro h
    have hlen := h.length_le
    rw [List.length_take, List.length_take, List.length_dropLast] at hlen
    omega
  · intro h
    rw [List.dropLast_eq_take, List.take_take, Nat.min_eq_left (by omega)]

/-- **What one call delivers.** -/
theorem Inv.inTime_of_inStep (h : Inv s) (hend : s.ended = false) (hin : InStep s) (junk : Junk)
    (rs : List RecvResult) (hnew : Inv (s.perform (.performRecv junk rs))) :
    Delivered (s.perform (.performRecv junk rs)) ↔ InTime s (.performRecv junk rs) := by
  obtain ⟨os, u, c, hrun, hstuck, -, hframes⟩ := hin.exists_run (arrived rs)
  rw [h.delivered_performRecv_iff hnew hframes, h.inTime_iff hend hin hframes]
  by_cases hagain : lastResult rs = .again
  · obtain ⟨hfinished, -, -⟩ := Connection.performRecv_again junk hagain s.conn
    rw [hfinished, map_snd_zip_eq_take]
    rcases hin.parsed junk hrun hstuck with ⟨hfits, p, hparsed, -⟩ | ⟨-, hfits, hos⟩ | ⟨-, hne, hover, hos, -⟩
    · rw [hparsed]
      exact iff_of_true (List.prefix_refl _) fun hne _ => ⟨hagain, fun hover => absurd ⟨hne, hover⟩ hfits⟩
    · exact iff_of_true (hos.take _) fun hne _ => ⟨hagain, fun hover => absurd ⟨hne, hover⟩ hfits⟩
    · -- the call that fetches the last response throws
      rw [hos, take_prefix_take_dropLast_iff hne]
      constructor
      · exact fun hlt _ _ => ⟨hagain, fun _ => hlt⟩
      · intro hcond
        by_cases hq : s.conn.sentRequests = []
        · rw [hq]
          exact List.length_pos_iff.mpr hne
        · exact (hcond hne hq).2 hover
  · obtain ⟨hfinished, -⟩ := Connection.performRecv_not_again junk hagain s.conn
    rw [hfinished, List.map_nil, List.prefix_nil, List.take_eq_nil_iff, List.length_eq_zero_iff]
    constructor
    · rintro (hq | hnil) hne hawaited
      · exact absurd hq hawaited
      · exact absurd hnil hne
    · intro hcond
      by_contra hnot
      obtain ⟨hawaited, hne⟩ := not_or.mp hnot
      exact hagain (hcond hne hawaited).1

/-! ## Every step -/

/-- Where a connection is in its stream is a matter of the bytes received, the requests finished and the
    parser. -/
theorem place_of_same (h : InStep s ∨ Derailed s) (hparser : t.conn.parser = s.conn.parser)
    (hreceived : t.received = s.received) (hfinished : t.finished = s.finished) : InStep t ∨ Derailed t := by
  rcases h with ⟨hinv, htaken, hruns, hstuck⟩ | hderailed
  · left
    exact ⟨by rwa [hparser], by rwa [hparser], by rwa [hparser, hreceived, hfinished], by rwa [hparser]⟩
  · right
    rwa [Derailed, hreceived, hfinished]

/-- A stream that has come to something that is no frame never gets over it. -/
theorem Derailed.perform (h : Derailed s) (junk : Junk) (rs : List RecvResult) :
    Derailed (s.perform (.performRecv junk rs)) := by
  obtain ⟨os, c, hrun, hos⟩ := h
  refine ⟨os, c ++ arrived rs, hrun.append_input (arrived rs), ?_⟩
  show os <+: (s.finished ++ (s.conn.performRecv junk rs).finished).map Prod.snd
  rw [List.map_append]
  exact hos.trans (List.prefix_append _ _)

/-- **A call that leaves the connection in use** has finished requests with all the responses it has
    completed. -/
theorem InStep.performRecv (h : InStep s) (junk : Junk) (rs : List RecvResult)
    (hend : (s.perform (.performRecv junk rs)).ended = false) :
    InStep (s.perform (.performRecv junk rs)) ∨ Derailed (s.perform (.performRecv junk rs)) := by
  obtain ⟨hthrown, hdefined⟩ : (s.conn.performRecv junk rs).thrown.isSome = false ∧
      (s.conn.performRecv junk rs).undefined = false := Bool.or_eq_false_iff.mp hend
  by_cases hagain : lastResult rs = .again
  · obtain ⟨os, u, c, hrun, hstuck, hall, -⟩ := h.exists_run (arrived rs)
    obtain ⟨hfinished, hparser, hthrows⟩ := Connection.performRecv_again junk hagain s.conn
    obtain ⟨hthrows, hlen⟩ := hthrows hdefined
    rw [hthrows, Option.isSome_map] at hthrown
    -- there is a request for each of them
    have hresps : (s.perform (.performRecv junk rs)).finished.map Prod.snd =
        s.finished.map Prod.snd ++ (s.conn.parsed junk (arrived rs)).outputs := by
      show (s.finished ++ (s.conn.performRecv junk rs).finished).map Prod.snd = _
      rw [List.map_append, hfinished, map_snd_zip_eq_take, List.take_of_length_le hlen]
    rcases h.parsed junk hrun hstuck with ⟨-, p, hparsed, hinv, htaken, rfl, rfl⟩ | ⟨rfl, -, hos⟩ |
      ⟨-, -, -, -, hthrew⟩
    · rw [hparsed] at hresps hparser
      have hconn : (s.perform (.performRecv junk rs)).conn.parser = p := hparser
      left
      exact ⟨by rwa [hconn], by rwa [hconn], by rwa [hconn, hresps], by rwa [hconn]⟩
    · right
      refine ⟨_, c, hall, ?_⟩
      rw [hresps]
      exact (List.prefix_append_right_inj _).mpr hos
    · exact absurd (hthrew.symm.trans hthrown) (by decide)
  · obtain ⟨-, hends⟩ := Connection.performRecv_not_again junk hagain s.conn
    exact absurd (hends.symm.trans hend) (by decide)

/-- Operations other than a receive move neither the stream nor the parser. -/
theorem place_perform (h : InStep s ∨ Derailed s) {op : Op} (hop : ∀ junk rs, op ≠ .performRecv junk rs) :
    InStep (s.perform op) ∨ Derailed (s.perform op) := by
  cases op with
  | addRequest req => exact place_of_same h rfl rfl rfl
  | performSend r => exact place_of_same h (Connection.performSend_kept r s.conn).2 rfl rfl
  | checkKeepAlive now r => exact place_of_same h (Connection.checkKeepAlive_kept now r s.conn).2 rfl rfl
  | performRecv junk rs => exact absurd rfl (hop junk rs)

theorem split_perform (h : Inv s) (op : Op) : (s.perform op).finished.map Prod.fst ++
    (s.perform op).conn.sentRequests = (s.perform op).added := by
  cases op with
  | addRequest req =>
      show s.finished.map Prod.fst ++ (s.conn.sentRequests ++ [req]) = s.added ++ [req]
      rw [← List.append_assoc, h.split]
  | performSend r =>
      show s.finished.map Prod.fst ++ (s.conn.performSend r).1.sentRequests = s.added
      rw [(Connection.performSend_kept r s.conn).1, h.split]
  | checkKeepAlive now r =>
      show s.finished.map Prod.fst ++ (s.conn.checkKeepAlive now r).1.sentRequests = s.added
      rw [(Connection.checkKeepAlive_kept now r s.conn).1, h.split]
  | performRecv junk rs =>
      obtain ⟨hsent, -⟩ := Connection.performRecv_spec junk rs s.conn
      show (s.finished ++ (s.conn.performRecv junk rs).finished).map Prod.fst ++
        (s.conn.performRecv junk rs).conn.sentRequests = s.added
      rw [List.map_append, List.append_assoc, hsent, h.split]

/-- **The invariant is kept by every operation.** -/
theorem Inv.perform (h : Inv s) (hend : s.ended = false) (op : Op) : Inv (s.perform op) := by
  refine ⟨split_perform h op, fun hend' => ?_⟩
  by_cases hop : ∃ junk rs, op = .performRecv junk rs
  · obtain ⟨junk, rs, rfl⟩ := hop
    rcases h.place hend with hin | hderailed
    · exact hin.performRecv junk rs hend'
    · exact Or.inr (hderailed.perform junk rs)
  · exact place_perform (h.place hend) fun junk rs heq => hop ⟨junk, rs, heq⟩

theorem step_eq_some {op : Op} (hstep : s.step op = some t) : s.ended = false ∧ s.perform op = t := by
  unfold step at hstep
  split at hstep
  · exact absurd hstep (by simp)
  · rename_i hend
    exact ⟨Bool.not_eq_true _ ▸ hend, Option.some.inj hstep⟩

theorem Inv.step (h : Inv s) {op : Op} (hstep : s.step op = some t) : Inv t := by
  obtain ⟨hend, rfl⟩ := step_eq_some hstep
  exact h.perform hend op

/-- **A step delivers everything exactly if it is in time.** -/
theorem Inv.step_delivered_iff (h : Inv s) {op : Op} :
    (∀ t, s.step op = some t → Delivered t) ↔ InTime s op := by
  cases hend : s.ended with
  | true =>
      -- there is no further step
      refine iff_of_true (fun t hstep => absurd (step_eq_some hstep).1 (by simp [hend])) ?_
      cases op with
      | performRecv junk rs => exact fun hopen => absurd (hend.symm.trans hopen) (by decide)
      | _ => exact True.intro
  | false =>
      have hstep : s.step op = some (s.perform op) := by rw [Session.step, hend]; rfl
      have hdelivered : (∀ t, s.step op = some t → Delivered t) ↔ Delivered (s.perform op) := by
        rw [hstep]
        exact ⟨fun hall => hall _ rfl, fun hone t ht => Option.some.inj ht ▸ hone⟩
      rw [hdelivered]
      have hnew := h.perform hend op
      have hplace := h.place hend
      cases op with
      | performRecv junk rs =>
          rcases hplace with hin | hderailed
          · exact h.inTime_of_inStep hend hin junk rs hnew
          · -- the call completes nothing
            refine iff_of_true (hnew.delivered (Or.inr (hderailed.perform junk rs))) ?_
            obtain ⟨os, c, hrun, -⟩ := hderailed
            intro _ hmore
            rw [frames_eq hrun rfl, frames_eq (hrun.append_input (arrived rs)) rfl] at hmore
            exact absurd hmore (Nat.lt_irrefl _)
      | _ => exact iff_of_true (hnew.delivered (place_perform hplace fun _ _ => by simp)) True.intro

theorem inv_new (sock now n : Nat) : Inv (new sock now n) ∧ (InStep (new sock now n)) := by
  obtain ⟨hsent, hparser⟩ := Connection.performSend_kept (.accepted n)
    { sock := sock, state := .handshaking, parser := .init, lastActivityTs := now, keepalivePeriod := 5,
      sentRequests := [], sendBuffer := upgradeRequest, accepted := [] }
  have hconn : (new sock now n).conn.parser = .init := hparser
  have hin : InStep (new sock now n) := by
    refine ⟨by rw [hconn]; exact ResponseParser.inv_init, by rw [hconn]; rfl, ?_, ?_⟩ <;> rw [hconn]
    · exact Machine.Runs.refl
    · exact framing.stuck_preamble (by decide)
  exact ⟨⟨hsent, fun _ => Or.inl hin⟩, hin⟩

/-- **Complete responses are delivered, exactly in the runs whose calls of `performRecv` are in time.** In
    whatever pieces the stream arrives, and whatever follows: in every state of a run, the first requests
    have been finished with the messages of the complete frames received, if and only if every call that
    completes a response to an outstanding request ends with `EAGAIN` and leaves no size line above the
    limit behind its last complete frame (or that frame answers no request). -/
theorem delivered_iff_in_time (sock now n : Nat) (ops : List Op) :
    Always step Delivered (new sock now n) ops ↔ Along step InTime (new sock now n) ops := by
  obtain ⟨hinv, hin⟩ := inv_new sock now n
  exact always_iff_along_of_invariant Inv (fun h hstep => h.step hstep) (fun h _ => h.step_delivered_iff)
    hinv (hinv.delivered (Or.inl hin))

/-- The response to the only request arrives, and with it the end of the stream. -/
def closedBehind : List Op :=
  [.performRecv (fun _ => 0) [.data handshakeMessage], .addRequest ⟨0, ascii "q"⟩,
    .performRecv (fun _ => 0) [.data (ascii "2\nok"), .closed]]

/-- It is not delivered: the receive loop throws with the response in its buffer. -/
theorem closedBehind_undelivered : ∃ s, Lib.run step (new 3 0 0) closedBehind = some s ∧
    framing.Carries s.received [ascii "ok"] [] ∧ s.added = [⟨0, ascii "q"⟩] ∧ s.finished = [] ∧
      s.ended = true ∧ ¬ Delivered s := by
  let s := (Lib.run step (new 3 0 0) closedBehind).get (by decide)
  have hcarries : framing.Carries s.received [ascii "ok"] [] :=
    ⟨[ascii "2\nok"], .cons ⟨by decide, ascii "2", by decide, by decide, by decide⟩ .nil, by decide⟩
  have hadded : s.added = [⟨0, ascii "q"⟩] := by decide
  have hfinished : s.finished = [] := by decide
  refine ⟨s, (Option.some_get _).symm, hcarries, hadded, hfinished, by decide, fun hdelivered => ?_⟩
  have hfirst := hdelivered _ _ hcarries (by rw [hadded]; decide)
  rw [hadded, hfinished] at hfirst
  exact absurd hfirst (by decide)

end Session
end BinClient
end Hiaux
