import Hiaux.BinClient.Connection

/-!
# `BinClient.Correctness.ReceiveLoop` — when the receive loop ends

The loop of `Connection::performRecv` makes a new `recv` at the bottom of a round. The branch for `EINTR`
goes round without reaching it, so the round after it sees the same result again: the loop ends exactly when
no `recv` is interrupted before the result that leaves it (`performRecv_ends_iff`). Where it ends, it does
what `performRecv` says (`performRecv_eq_of_within`).
-/

namespace Hiaux
namespace BinClient
namespace Connection

open Lib Strings Network

namespace RecvLoop

/-- The results that do not leave the loop: a positive count, or an interruption. -/
def Goes (r : RecvResult) : Prop := (∃ d, d ≠ [] ∧ r = .data d) ∨ r = .interrupted

/-- The results that leave it. -/
def Leaves (r : RecvResult) : Prop := r = .again ∨ r = .closed ∨ r = .fatal

/-- The bytes a sequence of results brings. -/
def bytes : List RecvResult → Bytes :=
  List.flatMap (fun r => match r with | .data d => d | _ => [])

/-- What a result that leaves the loop leaves it with. -/
def exit (readbf : Bytes) : RecvResult → Option Bytes
  | .again => some readbf
  | _ => none

theorem iterate_leaves {e : RecvResult} (he : Leaves e) (readbf : Bytes) (behind : List RecvResult) :
    iterate (recv readbf (e :: behind)) = .inr (exit readbf e, behind) := by
  rcases he with rfl | rfl | rfl <;> rfl

/-- **The receive loop**, on results that do not leave it followed by one that does: it ends exactly when
    no result is an interruption, with the bytes received and the results behind not taken. -/
theorem ends_iff {rs : List RecvResult} (hrs : ∀ r ∈ rs, Goes r) {e : RecvResult} (he : Leaves e)
    (readbf : Bytes) (behind : List RecvResult) (out : Option Bytes × List RecvResult) :
    Loop.Ends iterate (recv readbf (rs ++ e :: behind)) out ↔
      .interrupted ∉ rs ∧ (exit (readbf ++ bytes rs) e, behind) = out := by
  induction rs generalizing readbf with
  | nil =>
      rw [List.nil_append, Loop.ends_inr (iterate_leaves he readbf behind)]
      simp [bytes]
  | cons r rs ih =>
      rcases hrs r List.mem_cons_self with ⟨d, -, rfl⟩ | rfl
      · -- a round that reads: on to the next `recv`
        have hround : iterate (recv readbf (.data d :: rs ++ e :: behind)) =
            .inl (recv (readbf ++ d) (rs ++ e :: behind)) := rfl
        rw [Loop.ends_inl hround, ih (fun r hr => hrs r (List.mem_cons_of_mem _ hr))]
        simp [bytes]
      · -- a round that was interrupted: back to the same state
        have hround : iterate (recv readbf (.interrupted :: rs ++ e :: behind)) =
            .inl (recv readbf (.interrupted :: rs ++ e :: behind)) := rfl
        refine iff_of_false (Loop.not_ends_of_fixed hround) ?_
        rintro ⟨hnot, -⟩
        exact hnot List.mem_cons_self

/-- `recvLoop` is the loop's result where it ends, and `hang` where it does not. -/
theorem ends_iff_recvLoop (readbf : Bytes) (rs : List RecvResult) (out : Option Bytes) :
    (∃ behind, Loop.Ends iterate (recv readbf rs) (out, behind)) ↔
      recvLoop readbf rs = (match out with | some b => .bytes b | none => .lost) := by
  induction rs generalizing readbf with
  | nil =>
      have hround : iterate (recv readbf []) = .inr (some readbf, []) := rfl
      simp only [Loop.ends_inr hround, recvLoop]
      cases out <;> simp
  | cons r rs ih =>
      cases r with
      | data d =>
          have hround : iterate (recv readbf (.data d :: rs)) = .inl (recv (readbf ++ d) rs) := rfl
          simp only [Loop.ends_inl hround, recvLoop]
          exact ih (readbf ++ d)
      | interrupted =>
          have hround : iterate (recv readbf (.interrupted :: rs)) =
              .inl (recv readbf (.interrupted :: rs)) := rfl
          simp only [Loop.not_ends_of_fixed hround, recvLoop]
          cases out <;> simp
      | again =>
          simp only [Loop.ends_inr (iterate_leaves (.inl rfl) readbf rs), recvLoop, exit]
          cases out <;> simp
      | closed =>
          simp only [Loop.ends_inr (iterate_leaves (.inr (.inl rfl)) readbf rs), recvLoop, exit]
          cases out <;> simp
      | fatal =>
          simp only [Loop.ends_inr (iterate_leaves (.inr (.inr rfl)) readbf rs), recvLoop, exit]
          cases out <;> simp

end RecvLoop

/-- Running the loop of `performRecv` to its end. -/
theorem performRecvWithin_iff {junk : Junk} {rs : List RecvResult} {c : Connection} {r : Received}
    {behind : List RecvResult} :
    (∃ n, performRecvWithin n junk rs c = some (r, behind)) ↔
      ∃ out, Loop.Ends RecvLoop.iterate (RecvLoop.recv [] rs) (out, behind) ∧
        r = (match out with
          | some readbf => afterRecv junk readbf c
          | none => ⟨c, [], some .lostConnectionEx, false⟩) := by
  constructor
  · rintro ⟨n, hn⟩
    obtain ⟨⟨out, behind'⟩, hloop, hout⟩ := Option.map_eq_some_iff.mp hn
    cases out with
    | some readbf =>
        obtain ⟨rfl, rfl⟩ := Prod.mk.inj hout
        exact ⟨some readbf, ⟨n, hloop⟩, rfl⟩
    | none =>
        obtain ⟨rfl, rfl⟩ := Prod.mk.inj hout
        exact ⟨none, ⟨n, hloop⟩, rfl⟩
  · rintro ⟨out, ⟨n, hn⟩, rfl⟩
    refine ⟨n, ?_⟩
    rw [performRecvWithin, hn]
    cases out <;> rfl

/-- **Where the loop ends, `performRecv` is what it does.** -/
theorem performRecv_eq_of_within {n : Nat} {junk : Junk} {rs : List RecvResult} {c : Connection}
    {r : Received} {behind : List RecvResult} (h : performRecvWithin n junk rs c = some (r, behind)) :
    performRecv junk rs c = r := by
  obtain ⟨out, hends, rfl⟩ := performRecvWithin_iff.mp ⟨n, h⟩
  rw [performRecv, (RecvLoop.ends_iff_recvLoop [] rs out).mp ⟨behind, hends⟩]
  cases out <;> rfl

/-- **The receive loop ends exactly when it is not interrupted.** Whatever is received and whatever leaves
    the loop: `performRecv` takes the results up to that one in finitely many rounds, handing the parser
    what was received if it is `EAGAIN`, exactly when none of them is an interruption by a signal. -/
theorem performRecv_ends_iff (junk : Junk) (c : Connection) {rs : List RecvResult}
    (hrs : ∀ r ∈ rs, RecvLoop.Goes r) {e : RecvResult} (he : RecvLoop.Leaves e)
    (behind : List RecvResult) :
    (∃ n r, performRecvWithin n junk (rs ++ e :: behind) c = some (r, behind) ∧
        (e = .again → r = afterRecv junk (RecvLoop.bytes rs) c)) ↔
      .interrupted ∉ rs := by
  constructor
  · rintro ⟨n, r, hn, -⟩
    obtain ⟨out, hends, -⟩ := performRecvWithin_iff.mp ⟨n, hn⟩
    exact ((RecvLoop.ends_iff hrs he [] behind _).mp hends).1
  · intro hnot
    have hends := (RecvLoop.ends_iff hrs he [] behind _).mpr ⟨hnot, rfl⟩
    obtain ⟨n, hn⟩ := performRecvWithin_iff.mpr ⟨_, hends, rfl⟩
    refine ⟨n, _, hn, ?_⟩
    rintro rfl
    rfl

/-- The theorem at two reads and no interruption. -/
theorem performRecv_ends_twoReads :
    ∃ n r, performRecvWithin n (fun _ => 0) ([.data (ascii "ok"), .data (ascii "3\n")] ++ .again :: [])
        (new 3 7 (.accepted 99)).1 = some (r, []) ∧
      (RecvResult.again = .again →
        r = afterRecv (fun _ => 0) (RecvLoop.bytes [.data (ascii "ok"), .data (ascii "3\n")])
          (new 3 7 (.accepted 99)).1) := by
  have hgoes : ∀ r ∈ [RecvResult.data (ascii "ok"), .data (ascii "3\n")], RecvLoop.Goes r := by
    intro r hr
    rcases List.mem_pair.mp hr with rfl | rfl
    · exact Or.inl ⟨_, by decide, rfl⟩
    · exact Or.inl ⟨_, by decide, rfl⟩
  exact (performRecv_ends_iff (fun _ => 0) (new 3 7 (.accepted 99)).1 hgoes (.inl rfl) []).mpr (by decide)

/-- **One interruption is enough**: a signal before `EAGAIN` and the loop goes round for ever. -/
theorem performRecv_interrupted_hangs :
    (∀ r ∈ [RecvResult.interrupted], RecvLoop.Goes r) ∧
    ¬ ∃ n r, performRecvWithin n (fun _ => 0) ([.interrupted] ++ .again :: []) (new 3 7 (.accepted 99)).1 =
        some (r, []) ∧
      (RecvResult.again = .again →
        r = afterRecv (fun _ => 0) (RecvLoop.bytes [.interrupted]) (new 3 7 (.accepted 99)).1) := by
  refine ⟨fun r hr => Or.inr (List.mem_singleton.mp hr), ?_⟩
  rintro ⟨n, r, hn, -⟩
  obtain ⟨out, hends, -⟩ := performRecvWithin_iff.mp ⟨n, hn⟩
  have hround : RecvLoop.iterate (RecvLoop.recv [] ([.interrupted] ++ .again :: [])) =
      .inl (RecvLoop.recv [] ([.interrupted] ++ .again :: [])) := rfl
  exact Loop.not_ends_of_fixed hround hends

end Connection
end BinClient
end Hiaux
