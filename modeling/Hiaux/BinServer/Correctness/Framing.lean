import Hiaux.Lib.Framing
import Hiaux.BinServer.Parser

/-!
# `BinServer.Correctness.Framing` — the server reads exactly the requests sent

`Parser` is a reader of the framing machine that ignores keep-alive bytes between frames. Dropping a
keep-alive byte is a machine step of its own, so `parse_sim` is an induction on the rounds of the loop.
-/

namespace Hiaux
namespace BinServer

open Lib Strings BinClient

/-- The framing the client writes to the server. -/
def framing : Framing where
  preamble := []
  skip := fun b => b == keepaliveByte
  limit := binrequestMaxSize
  readSize := scanU64

theorem framing_readsNumerals : framing.ReadsNumerals where
  skip_digit := by
    intro b hb
    have hle : b.toNat ≤ 57 := by
      simp only [isDigit, Bool.and_eq_true, decide_eq_true_eq, UInt8.le_iff_toNat_le] at hb
      exact hb.2
    show (b == keepaliveByte) = false
    rw [beq_eq_false_iff_ne]
    rintro rfl
    exact absurd hle (by decide)
  read := fun n hn => scanU64_decimal (Nat.lt_of_le_of_lt hn (by decide))

/-- The framing machine, with every message turned into a request. -/
def requests (pb : Protobuf) : Machine Framing.Phase UInt8 (Option Request) :=
  framing.machine.mapOut (fun d => some (Request.ofDump pb d))

theorem requests_dead (pb : Protobuf) : (requests pb).DeadOutside Framing.Alive :=
  framing.dead_outside_alive.mapOut

namespace Parser

/-- The machine phase of a parser. -/
def phase (p : Parser) : Framing.Phase :=
  match p.state with
  | .readingSize => .size
  | .readingMessage => .message p.size

/-- What every parse keeps: a parser waiting for a request waits for at least one byte, and a full slot
    means a frame boundary. -/
structure Inv (p : Parser) : Prop where
  size_pos : p.state = .readingMessage → 0 < p.size
  boundary : p.gotRequest = true → p.state = .readingSize

theorem inv_init : Inv init := ⟨fun h => absurd h (by decide), fun h => absurd h (by decide)⟩

variable (pb : Protobuf) (junk : Junk)

/-- Where a call that parses stops, for this parser. -/
abbrev StopsAt := Reader.Stops (requests pb) phase curToken (reader pb junk)

/-! ## The blocks of the loop body -/

theorem readMessage_sim {p : Parser} (hst : p.state = .readingMessage) (hgot : p.gotRequest = false) :
    Inv (readMessage pb p) ∧ StopsAt pb junk (.message p.size) p.curToken (readMessage pb p) ∧
      (readMessage pb p).curToken.length ≤ p.curToken.length := by
  by_cases hle : p.size ≤ p.curToken.length
  · have hlen : (p.curToken.take p.size).length = p.size := by simp [hle]
    have heq : readMessage pb p =
        { p with
          curRequest := some (Request.ofDump pb (p.curToken.take p.size))
          gotRequest := true
          curToken := p.curToken.drop p.size
          state := .readingSize } := by
      rw [readMessage, if_pos ⟨hst, hle⟩]
      simp only [substr_zero, hlen]
      rw [substr_of_le (by omega)]
    have hstep : framing.machine.step (.message p.size) p.curToken
        = some (.size, p.curToken.drop p.size, [p.curToken.take p.size]) := if_pos hle
    rw [heq]
    exact ⟨⟨fun h => absurd h (by simp), fun _ => rfl⟩,
      Or.inl ⟨rfl, Machine.Runs.single (Machine.step_mapOut hstep)⟩, by simp⟩
  -- the message is not complete: the parser waits, and so does the machine
  · have heq : readMessage pb p = p := if_neg (fun h => hle h.2)
    have hphase : phase p = .message p.size := by simp [phase, hst]
    rw [heq]
    refine ⟨⟨fun _ => by omega, fun h => absurd (hgot.symm.trans h) (by decide)⟩,
      Or.inr ⟨hgot, ?_, ?_⟩, Nat.le_refl _⟩
    · rw [hphase]
      exact Machine.Runs.refl
    · rw [hphase]
      exact (framing.stuck_message (Nat.lt_of_not_le hle)).mapOut

theorem readSize_sim {p : Parser} (hst : p.state = .readingSize) (hgot : p.gotRequest = false)
    (hhead : p.curToken.head? ≠ some keepaliveByte) {os : List (Option Request)} {t : Framing.Phase}
    {c : Bytes} (hrun : (requests pb).Runs .size p.curToken os t c) (hstuck : (requests pb).Stuck t c)
    (ht : Framing.Alive t) :
    ∃ p', readSize pb junk p = (p', none) ∧ Inv p' ∧ StopsAt pb junk .size p.curToken p' ∧
      (p'.gotRequest = true → p'.curToken.length < p.curToken.length) := by
  have hskip : ∀ x, p.curToken.head? = some x → framing.skip x = false := by
    intro x hx
    show (x == keepaliveByte) = false
    rw [beq_eq_false_iff_ne]
    rintro rfl
    exact hhead hx
  have hstep := framing.step_size_of_not_skip hskip
  cases hfind : find newline p.curToken with
  | none =>
      have hphase : phase p = .size := by simp [phase, hst]
      rw [hfind] at hstep
      refine ⟨p, by simp only [readSize, hst, if_true, hfind],
        ⟨fun h => absurd (hst.symm.trans h) (by decide), fun _ => hst⟩, Or.inr ⟨hgot, ?_, ?_⟩, ?_⟩
      · rw [hphase]
        exact Machine.Runs.refl
      · rw [hphase]
        exact Machine.Stuck.mapOut hstep
      · intro h
        exact absurd (hgot.symm.trans h) (by decide)
  | some n =>
      have hlt : n < p.curToken.length := find_lt_length hfind
      have hlen : (p.curToken.take n).length = n := List.length_take_of_le hlt.le
      rw [hfind, Option.map_some] at hstep
      have hstep' : (requests pb).step _ _ = some _ := Machine.step_mapOut hstep
      -- the run goes on, so the size line was a numeral within the limit
      obtain ⟨halive, _⟩ := hrun.ok_of_step (requests_dead pb) hstuck ht hstep'
      obtain ⟨size, hread, hlim, hphase⟩ := framing.sizePhase_alive halive
      let q : Parser :=
        { p with curToken := p.curToken.drop (n + 1), size := size, state := .readingMessage }
      have heq : readSize pb junk p = (readMessage pb q, none) := by
        have hsz : stringToUint64 (junk (p.curToken.drop (n + 1))) (p.curToken.take n) = size := by
          rw [stringToUint64, show scanU64 (p.curToken.take n) = some size from hread]
          rfl
        simp only [readSize, hst, if_true, hfind, substr_zero, hlen]
        rw [substr_of_le (by omega), hsz,
          if_neg (show ¬ size > binrequestMaxSize from Nat.not_lt.mpr hlim)]
      obtain ⟨hinv, hstop, hle⟩ := readMessage_sim pb junk (p := q) rfl hgot
      rw [hphase] at hstep'
      refine ⟨readMessage pb q, heq, hinv, hstop.head hstep', fun _ => Nat.lt_of_le_of_lt hle ?_⟩
      show (p.curToken.drop (n + 1)).length < p.curToken.length
      rw [List.length_drop]
      omega

/-! ## The loop -/

/-- **The loop of `parse` follows the machine.** The induction is on the rounds left: a keep-alive byte is
    one machine step and one round, anything else is the last round. -/
theorem parseLoop_sim {t : Framing.Phase} {c : Bytes} (hstuck : (requests pb).Stuck t c)
    (ht : Framing.Alive t) :
    ∀ (fuel : Nat) {p : Parser} {os : List (Option Request)}, Inv p → p.gotRequest = false →
      p.curToken.length < fuel → (requests pb).Runs p.phase p.curToken os t c →
      ∃ p', parseLoop pb junk fuel p = (p', none) ∧ Inv p' ∧ StopsAt pb junk p.phase p.curToken p' ∧
        (p.state = .readingSize → p'.gotRequest = true → p'.curToken.length < p.curToken.length) := by
  intro fuel
  induction fuel with
  | zero => intro p os _ _ hlt; exact absurd hlt (Nat.not_lt_zero _)
  | succ k ih =>
      intro p os hinv hgot hlt hrun
      -- nothing buffered: the loop ends, and the machine is stuck
      by_cases hnil : p.curToken.length = 0
      · refine ⟨p, if_pos hnil, hinv, Or.inr ⟨hgot, Machine.Runs.refl, ?_⟩,
          fun _ h => absurd (hgot.symm.trans h) (by decide)⟩
        obtain ⟨st, tok, sz, req, got⟩ := p
        obtain rfl : tok = [] := List.length_eq_zero_iff.mp hnil
        cases st with
        | readingSize => exact framing.stuck_size_nil.mapOut
        | readingMessage => exact (framing.stuck_message (hinv.size_pos rfl)).mapOut
      cases hst : p.state with
      | readingMessage =>
          have hphase : p.phase = .message p.size := by simp [phase, hst]
          rw [hphase]
          obtain ⟨hinv', hstop, _⟩ := readMessage_sim pb junk hst hgot
          refine ⟨readMessage pb p, ?_, hinv', hstop, fun h => absurd h (by decide)⟩
          rw [parseLoop, if_neg hnil, if_neg (by rw [hst]; exact fun h => absurd h.1 (by decide)), readSize,
            if_neg (by rw [hst]; decide)]
      | readingSize =>
          have hphase : p.phase = .size := by simp [phase, hst]
          rw [hphase] at hrun ⊢
          -- a keep-alive byte: one more round, for which one byte less is left
          by_cases hk : p.curToken.head? = some keepaliveByte
          · obtain ⟨st, tok, sz, req, got⟩ := p
            obtain ⟨tl, rfl⟩ : ∃ tl, tok = keepaliveByte :: tl := List.head?_eq_some_iff.mp hk
            obtain rfl : st = .readingSize := hst
            have hstep : (requests pb).step .size (keepaliveByte :: tl) = some (.size, tl, []) := rfl
            obtain ⟨_, os', hrun'⟩ := hrun.ok_of_step (requests_dead pb) hstuck ht hstep
            let q : Parser := ⟨.readingSize, tl, sz, req, got⟩
            have hinvq : Inv q := ⟨fun h => absurd h (by simp [q]), fun _ => rfl⟩
            have hq : parseLoop pb junk (k + 1) ⟨.readingSize, keepaliveByte :: tl, sz, req, got⟩
                = parseLoop pb junk k q := by
              rw [parseLoop, if_neg hnil, if_pos ⟨rfl, hk⟩]
              by_cases htl : tl = []
              · subst htl
                cases k with
                | zero => exact absurd hlt (by simp)
                | succ k => rfl
              · have hone : ¬ (keepaliveByte :: tl).length = 1 := by simpa using htl
                rw [if_neg hone, substr_of_le (by simp)]
                rfl
            obtain ⟨p', hp', hi, hstop, hsh⟩ := ih hinvq hgot
              (by have := hlt; simp only [List.length_cons] at this; show tl.length < k; omega) hrun'
            refine ⟨p', hq.trans hp', hi, hstop.head hstep, fun _ h => ?_⟩
            exact Nat.lt_succ_of_lt (hsh rfl h)
          · obtain ⟨p', hp', hi, hstop, hsh⟩ := readSize_sim pb junk hst hgot hk hrun hstuck ht
            refine ⟨p', ?_, hi, hstop, fun _ => hsh⟩
            rw [parseLoop, if_neg hnil, if_neg (fun h => hk h.2), hp']

/-- **`Parser` simulates the framing machine.** -/
theorem reader_simulates :
    Reader.Simulates (requests pb) phase curToken Inv (reader pb junk) Framing.Alive where
  execute := by
    intro p d os t c hinv hgot hrun hstuck ht
    have hinv' : Inv { p with curToken := p.curToken ++ d } := ⟨hinv.size_pos, hinv.boundary⟩
    obtain ⟨p', hp', hi, hstop, _⟩ :=
      parseLoop_sim pb junk hstuck ht _ hinv' hgot (Nat.lt_succ_self _) hrun
    exact ⟨p', hp', hi, hstop⟩
  get := by
    intro p os t c hinv hgot hrun hstuck ht
    have hinv' : Inv { p with gotRequest := false } := ⟨hinv.size_pos, fun h => absurd h (by simp)⟩
    obtain ⟨p', hp', hi, hstop, hlt⟩ :=
      parseLoop_sim pb junk hstuck ht _ hinv' rfl (Nat.lt_succ_self _) hrun
    exact ⟨p', hp', hi, hstop, hlt (hinv.boundary hgot)⟩
  rounds := fun p => Nat.lt_succ_self _

end Parser

end BinServer
end Hiaux
