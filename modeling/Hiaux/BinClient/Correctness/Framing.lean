import Hiaux.Lib.Framing
import Hiaux.BinClient.Parser

/-!
# `BinClient.Correctness.Framing` — the client reads exactly the responses sent

`ResponseParser` is a reader of the framing machine with the handshake as preamble: one call of `parse`
goes through at most three machine steps (`parse_sim`), so `execute` and `getResponse` simulate it
(`reader_simulates`). The stream theorem is then the library's.
-/

namespace Hiaux
namespace BinClient

open Lib Strings

/-- The framing the server writes to the client. -/
def framing : Framing where
  preamble := handshakeMessage
  skip := fun _ => false
  limit := messageSizeLimit
  readSize := scanU64

theorem framing_readsNumerals : framing.ReadsNumerals where
  skip_digit := fun _ _ => rfl
  read := fun n hn => scanU64_decimal (Nat.lt_of_le_of_lt hn (by decide))

namespace ResponseParser

/-- The machine phase of a parser. -/
def phase (p : ResponseParser) : Framing.Phase :=
  match p.state with
  | .readingHandshake => .preamble
  | .readingSize => .size
  | .readingMessage => .message p.size

/-- What every parse keeps: a parser waiting for a message waits for at least one byte, a full slot means
    a frame boundary, and the callback has been called once exactly when the handshake is behind. -/
structure Inv (p : ResponseParser) : Prop where
  size_pos : p.state = .readingMessage → 0 < p.size
  boundary : p.gotResponse = true → p.state = .readingSize
  handshaked : p.handshakedCalls = if p.state = .readingHandshake then 0 else 1

theorem inv_init : Inv init := ⟨fun h => absurd h (by decide), fun h => absurd h (by decide), rfl⟩

/-- Where a call that parses stops, for this parser. -/
abbrev StopsAt (junk : Junk) := Reader.Stops framing.machine phase curToken (reader junk)

variable (junk : Junk)

/-! ## The three blocks -/

/-- The message block reads the message if it is all there. -/
theorem readMessage_sim {p : ResponseParser} (hst : p.state = .readingMessage)
    (hgot : p.gotResponse = false) (hcalls : p.handshakedCalls = 1) :
    Inv (readMessage p) ∧ StopsAt junk (.message p.size) p.curToken (readMessage p) ∧
      (readMessage p).curToken.length ≤ p.curToken.length := by
  by_cases hle : p.size ≤ p.curToken.length
  · have hlen : (p.curToken.take p.size).length = p.size := by simp [hle]
    have heq : readMessage p =
        { p with
          curResponse := p.curToken.take p.size
          gotResponse := true
          curToken := p.curToken.drop p.size
          state := .readingSize } := by
      rw [readMessage, if_pos ⟨hst, hle⟩]
      simp only [substr_zero, hlen]
      rw [substr_of_le (by omega)]
    rw [heq]
    refine ⟨⟨fun h => absurd h (by simp), fun _ => rfl, by simp [hcalls]⟩, Or.inl ⟨rfl, ?_⟩, by simp⟩
    exact Machine.Runs.single (if_pos hle)
  · have heq : readMessage p = p := if_neg (fun h => hle h.2)
    have hphase : phase p = .message p.size := by simp [phase, hst]
    rw [heq]
    refine ⟨⟨fun _ => by omega, fun h => absurd (hgot.symm.trans h) (by decide), by simp [hcalls, hst]⟩,
      Or.inr ⟨hgot, ?_, ?_⟩, Nat.le_refl _⟩
    · rw [hphase]
      exact Machine.Runs.refl
    · rw [hphase]
      exact framing.stuck_message (Nat.lt_of_not_le hle)

/-- The size block reads a size line if there is one, and goes on to the message. -/
theorem readSize_sim {p : ResponseParser} (hst : p.state = .readingSize) (hgot : p.gotResponse = false)
    (hcalls : p.handshakedCalls = 1) (hsafe : framing.machine.Safe Framing.Alive .size p.curToken) :
    ∃ p', readSize junk p = (p', none) ∧ Inv p' ∧ StopsAt junk .size p.curToken p' ∧
      (p'.gotResponse = true → p'.curToken.length < p.curToken.length) := by
  have hstep := framing.step_size_of_not_skip (b := p.curToken) (fun _ _ => rfl)
  cases hfind : find newline p.curToken with
  | none =>
      have hphase : phase p = .size := by simp [phase, hst]
      rw [hfind] at hstep
      refine ⟨p, by simp only [readSize, hst, if_true, hfind],
        ⟨fun h => absurd (hst.symm.trans h) (by decide), fun _ => hst, by simp [hcalls, hst]⟩,
        Or.inr ⟨hgot, ?_, ?_⟩, ?_⟩
      · rw [hphase]
        exact Machine.Runs.refl
      · rw [hphase]
        exact hstep
      · intro h
        exact absurd (hgot.symm.trans h) (by decide)
  | some n =>
      have hlt : n < p.curToken.length := find_lt_length hfind
      have hlen : (p.curToken.take n).length = n := List.length_take_of_le hlt.le
      rw [hfind, Option.map_some] at hstep
      -- the line is a number within the limit, or the machine would have failed
      obtain ⟨size, hread, hlim, hphase⟩ := framing.sizePhase_alive (hsafe.step hstep).1
      let q : ResponseParser :=
        { p with curToken := p.curToken.drop (n + 1), size := size, state := .readingMessage }
      have heq : readSize junk p = (readMessage q, none) := by
        have hsz : stringToUint64 (junk (p.curToken.drop (n + 1))) (p.curToken.take n) = size := by
          rw [stringToUint64, show scanU64 (p.curToken.take n) = some size from hread]
          rfl
        simp only [readSize, hst, if_true, hfind, substr_zero, hlen]
        rw [substr_of_le (by omega), hsz,
          if_neg (show ¬ size > messageSizeLimit from Nat.not_lt.mpr hlim)]
      obtain ⟨hinv, hstop, hle⟩ := readMessage_sim junk (p := q) rfl hgot hcalls
      rw [hphase] at hstep
      refine ⟨readMessage q, heq, hinv, hstop.head hstep, fun _ => Nat.lt_of_le_of_lt hle ?_⟩
      show (p.curToken.drop (n + 1)).length < p.curToken.length
      rw [List.length_drop]
      omega

/-- **One call of `parse` follows the machine** until a message is complete or input is missing, as long as
    the machine does not fail before it emits a message. -/
theorem parse_safe {p : ResponseParser} (hinv : Inv p) (hgot : p.gotResponse = false)
    (hsafe : framing.machine.Safe Framing.Alive p.phase p.curToken) :
    ∃ p', parse junk p = (p', none) ∧ Inv p' ∧ StopsAt junk p.phase p.curToken p' ∧
      (p.state = .readingSize → p'.gotResponse = true → p'.curToken.length < p.curToken.length) := by
  by_cases hnil : p.curToken.length = 0
  -- nothing buffered: no phase can do anything, a message phase because it waits for a byte
  · refine ⟨p, if_pos hnil, hinv, Or.inr ⟨hgot, Machine.Runs.refl, ?_⟩,
      fun _ h => absurd (hgot.symm.trans h) (by decide)⟩
    obtain ⟨st, tok, sz, resp, got, calls⟩ := p
    obtain rfl : tok = [] := List.length_eq_zero_iff.mp hnil
    cases st with
    | readingHandshake => exact framing.stuck_preamble (show 0 < handshakeMessage.length by decide)
    | readingSize => rfl
    | readingMessage => exact framing.stuck_message (hinv.size_pos rfl)
  cases hst : p.state with
  | readingHandshake =>
      have hphase : p.phase = .preamble := by simp [phase, hst]
      rw [hphase] at hsafe ⊢
      by_cases hle : handshakeMessage.length ≤ p.curToken.length
      · have hstep : framing.machine.step .preamble p.curToken = some _ := if_pos hle
        have hshake : p.curToken.take handshakeMessage.length = handshakeMessage := by
          by_contra hne
          exact (hsafe.step hstep).1 (if_neg hne)
        rw [if_pos (show p.curToken.take framing.preamble.length = framing.preamble from hshake)] at hstep
        let q : ResponseParser :=
          { p with
            curToken := p.curToken.drop handshakeMessage.length
            state := .readingSize
            handshakedCalls := p.handshakedCalls + 1 }
        have heq : parse junk p = readSize junk q := by
          rw [parse, if_neg hnil, if_pos hst, if_pos hle]
          simp only [substr_zero, hshake, ne_eq, not_true_eq_false, if_false]
          rw [substr_of_le (by omega)]
        have hcalls : q.handshakedCalls = 1 := by
          show p.handshakedCalls + 1 = 1
          rw [hinv.handshaked, hst]
          rfl
        obtain ⟨p', hp', hinv', hstop, _⟩ := readSize_sim junk (p := q) rfl hgot hcalls (hsafe.step hstep).2
        exact ⟨p', heq.trans hp', hinv', hstop.head hstep, fun h => absurd h (by decide)⟩
      · refine ⟨p, ?_, hinv, Or.inr ⟨hgot, ?_, ?_⟩, fun h => absurd h (by decide)⟩
        · rw [parse, if_neg hnil, if_pos hst, if_neg hle]
        · rw [hphase]
          exact Machine.Runs.refl
        · rw [hphase]
          exact framing.stuck_preamble (Nat.lt_of_not_le hle)
  | readingSize =>
      have hphase : p.phase = .size := by simp [phase, hst]
      have hcalls : p.handshakedCalls = 1 := by
        rw [hinv.handshaked, hst]
        rfl
      rw [hphase] at hsafe ⊢
      obtain ⟨p', hp', hinv', hstop, hlt⟩ := readSize_sim junk hst hgot hcalls hsafe
      refine ⟨p', ?_, hinv', hstop, fun _ => hlt⟩
      rw [parse, if_neg hnil, if_neg (by rw [hst]; decide), hp']
  | readingMessage =>
      have hphase : p.phase = .message p.size := by simp [phase, hst]
      have hcalls : p.handshakedCalls = 1 := by
        rw [hinv.handshaked, hst]
        rfl
      rw [hphase]
      obtain ⟨hinv', hstop, _⟩ := readMessage_sim junk hst hgot hcalls
      refine ⟨readMessage p, ?_, hinv', hstop, fun h => absurd h (by decide)⟩
      rw [parse, if_neg hnil, if_neg (by rw [hst]; decide), readSize, if_neg (by rw [hst]; decide)]

theorem parse_sim {p : ResponseParser} (hinv : Inv p) (hgot : p.gotResponse = false) {os : List Bytes}
    {t : Framing.Phase} {c : Bytes} (hrun : framing.machine.Runs p.phase p.curToken os t c)
    (hstuck : framing.machine.Stuck t c) (ht : Framing.Alive t) :
    ∃ p', parse junk p = (p', none) ∧ Inv p' ∧ StopsAt junk p.phase p.curToken p' ∧
      (p.state = .readingSize → p'.gotResponse = true → p'.curToken.length < p.curToken.length) :=
  parse_safe junk hinv hgot (hrun.safe framing.dead_outside_alive hstuck ht)

/-! ## Whole streams -/

/-- **`ResponseParser` simulates the framing machine.** -/
theorem reader_simulates (junk : Junk) :
    Reader.Simulates framing.machine phase curToken Inv (reader junk) Framing.Alive where
  execute := by
    intro p d os t c hinv hgot hrun hstuck ht
    have hinv' : Inv { p with curToken := p.curToken ++ d } :=
      ⟨hinv.size_pos, hinv.boundary, hinv.handshaked⟩
    obtain ⟨p', hp', hi, hstop, _⟩ := parse_sim junk hinv' hgot hrun hstuck ht
    exact ⟨p', hp', hi, hstop⟩
  get := by
    intro p os t c hinv hgot hrun hstuck ht
    have hst : p.state = .readingSize := hinv.boundary hgot
    have hinv' : Inv { p with gotResponse := false } :=
      ⟨hinv.size_pos, fun h => absurd h (by simp), hinv.handshaked⟩
    obtain ⟨p', hp', hi, hstop, hlt⟩ := parse_sim junk hinv' rfl hrun hstuck ht
    exact ⟨p', hp', hi, hstop, hlt hst⟩
  rounds := fun p => Nat.lt_succ_self _

/-- What the server sends on a connection: the handshake, then one frame per response. -/
def serverStream (ms : List Bytes) : Bytes := handshakeMessage ++ ms.flatMap frame

/-- The machine reads the server's stream to its end. -/
theorem runs_serverStream {ms : List Bytes} (hms : ∀ m ∈ ms, m.length ≤ messageSizeLimit) :
    framing.machine.Runs .preamble (serverStream ms) ms .size [] := by
  have hitems := Framing.runs_items framing_readsNumerals (ms.map Framing.Item.message)
    (fun i hi => by
      obtain ⟨m, hm, rfl⟩ := List.mem_map.mp hi
      exact hms m hm) []
  have hbytes : Framing.encodeItems (ms.map Framing.Item.message) = ms.flatMap frame := by
    rw [Framing.encodeItems, List.flatMap_map]
    rfl
  have hmsgs : Framing.messages (ms.map Framing.Item.message) = ms := by
    rw [Framing.messages, List.filterMap_map]
    exact List.filterMap_some
  rw [hbytes, hmsgs, List.append_nil] at hitems
  exact (Framing.runs_preamble (F := framing) _).trans hitems

/-- **Framing is independent of chunking.** In whatever chunks the handshake and the frames of `ms` arrive,
    receiving them delivers exactly `ms`, throws nothing, calls `m_onHandshaked` once, and ends between two
    frames with an empty buffer. -/
theorem receiveAll_serverStream (ms : List Bytes) (hms : ∀ m ∈ ms, m.length ≤ messageSizeLimit)
    (cs : List Chunk) (hcs : (cs.map Chunk.bytes).flatten = serverStream ms) :
    (receiveAll init cs).outputs = ms ∧ (receiveAll init cs).thrown = none ∧
      (receiveAll init cs).reader.handshakedCalls = 1 ∧
      (receiveAll init cs).reader.state = .readingSize ∧
      (receiveAll init cs).reader.curToken = [] := by
  let rs := cs.map (fun c => (reader c.junk, c.bytes))
  have hbytes : (rs.map Prod.snd).flatten = serverStream ms := by
    rw [List.map_map]
    exact hcs
  have hsim : ∀ r ∈ rs, Reader.Simulates framing.machine phase curToken Inv r.1 Framing.Alive := by
    intro r hr
    obtain ⟨c, _, rfl⟩ := List.mem_map.mp hr
    exact reader_simulates c.junk
  have hhas : ∀ r ∈ rs, r.1.has = hasResponse := by
    intro r hr
    obtain ⟨c, _, rfl⟩ := List.mem_map.mp hr
    rfl
  -- the machine waits for the handshake, then reads the whole stream
  have hstuck : framing.machine.Stuck (phase init) (curToken init) := framing.stuck_preamble (by decide)
  have hrun : framing.machine.Runs (phase init) (curToken init ++ ((rs.map Prod.snd).flatten ++ []))
      ms .size [] := by
    rw [hbytes, List.append_nil]
    exact runs_serverStream hms
  obtain ⟨os, p, hall, hinv, _, hend⟩ := Reader.receiveAll_of_runs framing.dead_outside_alive hsim hhas
    inv_init rfl hstuck hrun framing.stuck_size_nil (by simp [Framing.Alive])
  obtain ⟨rfl, hphase, hbuf⟩ := hend rfl
  have hst : p.state = .readingSize := by
    cases hp : p.state <;> simp [phase, hp] at hphase ⊢
  rw [receiveAll, hall]
  exact ⟨rfl, rfl, by rw [hinv.handshaked, hst]; rfl, hst, hbuf⟩

/-- The theorem at two responses, one of them empty, cut inside the handshake, a size line and a body. -/
theorem receiveAll_serverStream_cut :
    let cs : List Chunk := [⟨ascii "hiapi_conn", fun _ => 7⟩, ⟨ascii "ected3", fun _ => 7⟩,
      ⟨ascii "\nab", fun _ => 7⟩, ⟨ascii "c0\n", fun _ => 7⟩]
    (receiveAll init cs).outputs = [ascii "abc", []] ∧ (receiveAll init cs).thrown = none ∧
      (receiveAll init cs).reader.handshakedCalls = 1 ∧
      (receiveAll init cs).reader.state = .readingSize ∧
      (receiveAll init cs).reader.curToken = [] :=
  receiveAll_serverStream [ascii "abc", []] (by decide) _ (by decide)

end ResponseParser

end BinClient
end Hiaux
