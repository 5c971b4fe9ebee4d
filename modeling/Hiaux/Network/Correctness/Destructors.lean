import Hiaux.Lib.Lookup
import Hiaux.Network.Descriptors

/-!
# `Network.Correctness.Destructors` — whose sockets the destructors act on

In every run a connection owns its number until its destructor closes it (`Owned`), so a `close` is always its own.
Behind it the number may be given away before the `shutdown` (`destructors_reused`). If no new socket gets a number
like this, the number is free when the `shutdown` comes (`Vacant`), and the destructors are harmless.
-/

namespace Hiaux
namespace Network
namespace Process

open Lib Lib.Threads

variable {s t : System} {o : Endpoint} {input : Input}

/-! ## Who owns which number -/

/-- A connection that has not closed its socket. -/
def Holding (o : Endpoint) : Prop := o.calls = none ∨ o.calls = some [.close, .shutdown]

/-- **What holds in every run**: the connections are numbered, and each owns its number until it closes it. -/
structure Owned (s : System) : Prop where
  made : s.shared.made = s.locals.length
  id : ∀ (i : Nat) o, s.locals[i]? = some o → o.id = i
  calls : ∀ (i : Nat) o, s.locals[i]? = some o → Holding o ∨ o.calls = some [.shutdown] ∨ o.calls = some []
  owns : ∀ (i : Nat) o, s.locals[i]? = some o → Holding o → s.shared.table[o.sock]? = some o.id
  closes : ∀ a ∈ s.shared.acted, a.call = .close → a.owner = some a.actor

theorem Owned.init : Owned init :=
  ⟨rfl, fun _ _ h => absurd h (by simp [Process.init]), fun _ _ h => absurd h (by simp [Process.init]),
    fun _ _ h => absurd h (by simp [Process.init]), fun _ h => absurd h List.not_mem_nil⟩

/-- **What a step can do.** -/
theorem step_cases (h : program.step s input = some t) :
    (∃ cls fd, (input = .event (.accept fd) ∨ input = .event (.connect fd)) ∧ fd ∉ s.shared.table ∧
      t = ⟨{ s.shared with table := s.shared.table.insert fd s.shared.made, made := s.shared.made + 1 },
        s.locals ++ [⟨cls, s.shared.made, fd, none⟩]⟩) ∨
    (∃ i o, s.locals[i]? = some o ∧ o.calls = none ∧
      t = ⟨s.shared, s.locals.set i { o with calls := some [.close, .shutdown] }⟩) ∨
    (∃ i o call rest, s.locals[i]? = some o ∧ o.calls = some (call :: rest) ∧
      t = ⟨s.shared.perform o call, s.locals.set i { o with calls := some rest }⟩) := by
  rcases Threads.step_cases h with ⟨e, g, ps, rfl, he, rfl⟩ | ⟨i, c, o, g, q, rfl, hi, hn, rfl⟩
  · left
    have hopen : ∀ cls fd, s.shared.newSocket cls fd = some (g, ps) → fd ∉ s.shared.table ∧
        (⟨g, s.locals ++ ps⟩ : System) =
          ⟨{ s.shared with table := s.shared.table.insert fd s.shared.made, made := s.shared.made + 1 },
            s.locals ++ [⟨cls, s.shared.made, fd, none⟩]⟩ := by
      intro cls fd ho
      rw [newSocket] at ho
      split at ho
      · cases ho
      · rename_i hfree
        obtain ⟨rfl, rfl⟩ := Prod.mk.inj (Option.some.inj ho)
        exact ⟨hfree, rfl⟩
    cases e with
    | accept fd =>
        have ho : (if 0 < fd then s.shared.newSocket .httpConnection fd else none) = some (g, ps) := he
        split at ho
        · obtain ⟨hfree, ht⟩ := hopen _ fd ho
          exact ⟨_, fd, Or.inl rfl, hfree, ht⟩
        · cases ho
    | connect fd =>
        obtain ⟨hfree, ht⟩ := hopen _ fd he
        exact ⟨_, fd, Or.inr rfl, hfree, ht⟩
  · right
    have hnext : next s.shared o c = some (g, q) := hn
    rw [next] at hnext
    split at hnext
    · rename_i hcalls
      obtain ⟨rfl, rfl⟩ := Prod.mk.inj (Option.some.inj hnext)
      refine Or.inl ⟨i, o, hi, hcalls, ?_⟩
      cases hcls : o.cls <;> rfl
    · cases hnext
    · rename_i call rest hcalls
      obtain ⟨rfl, rfl⟩ := Prod.mk.inj (Option.some.inj hnext)
      exact Or.inr ⟨i, o, call, rest, hi, hcalls, rfl⟩

/-- A destructor closes, then shuts down. -/
theorem Owned.call_cases (h : Owned s) {i : Nat} {call : SysCall} {rest : List SysCall} (hi : s.locals[i]? = some o)
    (hcalls : o.calls = some (call :: rest)) :
    (call = .close ∧ rest = [.shutdown] ∧ Holding o) ∨ (call = .shutdown ∧ rest = [] ∧ o.calls = some [.shutdown]) := by
  rcases h.calls i o hi with (hnone | hclose) | hshut | hover
  · rw [hcalls] at hnone
    cases hnone
  · rw [hcalls] at hclose
    obtain ⟨rfl, rfl⟩ := List.cons.inj (Option.some.inj hclose)
    exact Or.inl ⟨rfl, rfl, Or.inr hcalls⟩
  · rw [hcalls] at hshut
    obtain ⟨rfl, rfl⟩ := List.cons.inj (Option.some.inj hshut)
    exact Or.inr ⟨rfl, rfl, hcalls⟩
  · rw [hcalls] at hover
    cases hover

/-- A new socket. -/
theorem Owned.newSocket (h : Owned s) {fd : Nat} (hfree : fd ∉ s.shared.table) (cls : ConnectionClass) :
    Owned ⟨{ s.shared with table := s.shared.table.insert fd s.shared.made, made := s.shared.made + 1 },
      s.locals ++ [⟨cls, s.shared.made, fd, none⟩]⟩ := by
  refine ⟨?_, ?_, ?_, ?_, h.closes⟩
  · show s.shared.made + 1 = (s.locals ++ _).length
    rw [h.made, List.length_append, List.length_singleton]
  · intro j q hj
    rcases getElem?_concat_cases hj with hj | ⟨rfl, rfl⟩
    · exact h.id j q hj
    · exact h.made
  · intro j q hj
    rcases getElem?_concat_cases hj with hj | ⟨rfl, rfl⟩
    · exact h.calls j q hj
    · exact Or.inl (Or.inl rfl)
  · intro j q hj hholding
    show (s.shared.table.insert fd s.shared.made)[q.sock]? = some q.id
    rcases getElem?_concat_cases hj with hj | ⟨rfl, rfl⟩
    · have howns := h.owns j q hj hholding
      have hne : fd ≠ q.sock := by
        rintro rfl
        exact hfree (Std.ExtTreeMap.mem_iff_isSome_getElem?.mpr (by rw [howns]; rfl))
      rw [Std.ExtTreeMap.getElem?_insert, if_neg (by simpa using hne), howns]
    · exact Std.ExtTreeMap.getElem?_insert_self

/-- A connection goes on in its destructor, and the process is then `p`. -/
theorem Owned.move (h : Owned s) {i : Nat} (hi : s.locals[i]? = some o) {p : Process} {rest : List SysCall}
    (hmade : p.made = s.shared.made) (hrest : rest = [.close, .shutdown] ∨ rest = [.shutdown] ∨ rest = [])
    (hself : rest = [.close, .shutdown] → p.table[o.sock]? = some o.id)
    (hother : ∀ (j : Nat) q, j ≠ i → s.locals[j]? = some q → Holding q → p.table[q.sock]? = some q.id)
    (hcloses : ∀ a ∈ p.acted, a.call = .close → a.owner = some a.actor) :
    Owned ⟨p, s.locals.set i { o with calls := some rest }⟩ := by
  refine ⟨?_, ?_, ?_, ?_, hcloses⟩
  · rw [List.length_set, ← h.made]
    exact hmade
  · intro j q hj
    rcases getElem?_set_cases hj with ⟨rfl, rfl⟩ | ⟨-, hj⟩
    · exact h.id j o hi
    · exact h.id j q hj
  · intro j q hj
    rcases getElem?_set_cases hj with ⟨rfl, rfl⟩ | ⟨-, hj⟩
    · rcases hrest with rfl | hrest
      · exact Or.inl (Or.inr rfl)
      · exact Or.inr (hrest.imp (congrArg some) (congrArg some))
    · exact h.calls j q hj
  · intro j q hj hholding
    rcases getElem?_set_cases hj with ⟨rfl, rfl⟩ | ⟨hne, hj⟩
    · exact hself (Option.some.inj (hholding.resolve_left (by simp)))
    · exact hother j q hne hj hholding

/-- Of the connections with one number, only one owns it. -/
theorem Owned.sock_ne (h : Owned s) {i j : Nat} {q : Endpoint} (hi : s.locals[i]? = some o)
    (hj : s.locals[j]? = some q) (hne : j ≠ i) (ho : Holding o) (hq : Holding q) : o.sock ≠ q.sock := by
  intro hsock
  have howns := h.owns i o hi ho
  rw [hsock, h.owns j q hj hq, h.id j q hj, h.id i o hi] at howns
  exact hne (Option.some.inj howns)

/-- A `close`. -/
theorem Owned.close (h : Owned s) {i : Nat} (hi : s.locals[i]? = some o) (ho : Holding o) :
    Owned ⟨s.shared.perform o .close, s.locals.set i { o with calls := some [.shutdown] }⟩ := by
  refine h.move hi rfl (Or.inr (Or.inl rfl)) (fun hclose => absurd hclose (by simp)) ?_ ?_
  · intro j q hne hj hq
    have hsock := h.sock_ne hi hj hne ho hq
    exact getElem?_erase_iff.mpr ⟨hsock.symm, h.owns j q hj hq⟩
  · intro a ha hclose
    rw [perform_acted, List.mem_append, List.mem_singleton] at ha
    rcases ha with ha | rfl
    · exact h.closes a ha hclose
    · exact h.owns i o hi ho

/-- A `shutdown`. -/
theorem Owned.shutdown (h : Owned s) {i : Nat} (hi : s.locals[i]? = some o) :
    Owned ⟨s.shared.perform o .shutdown, s.locals.set i { o with calls := some [] }⟩ := by
  refine h.move hi rfl (Or.inr (Or.inr rfl)) (fun hclose => absurd hclose (by simp)) ?_ ?_
  · exact fun j q _ hj hq => h.owns j q hj hq
  · intro a ha hclose
    rw [perform_acted, List.mem_append, List.mem_singleton] at ha
    rcases ha with ha | rfl
    · exact h.closes a ha hclose
    · cases hclose

/-- **Every step keeps it.** -/
theorem Owned.step (h : Owned s) (hstep : program.step s input = some t) : Owned t := by
  rcases step_cases hstep with ⟨cls, fd, -, hfree, rfl⟩ | ⟨i, o, hi, hcalls, rfl⟩ |
      ⟨i, o, call, rest, hi, hcalls, rfl⟩
  · exact h.newSocket hfree cls
  · exact h.move hi rfl (Or.inl rfl) (fun _ => h.owns i o hi (Or.inl hcalls)) (fun j q _ hj hq => h.owns j q hj hq)
      h.closes
  · rcases h.call_cases hi hcalls with ⟨rfl, rfl, hown⟩ | ⟨rfl, rfl, -⟩
    · exact h.close hi hown
    · exact h.shutdown hi

/-- **A `close` is always a connection's own.** -/
theorem closes_own {inputs : List Input} (hrun : run program.step init inputs = some s) :
    ∀ a ∈ s.shared.acted, a.call = .close → a.owner = some a.actor :=
  (run_invariant Owned Owned.step .init hrun).closes

/-! ## Numbers that stay free -/

/-- No destructor has acted on the socket of another connection. -/
def Harmless (s : System) : Prop := ∀ a ∈ s.shared.acted, ∀ owner, a.owner = some owner → owner = a.actor

/-- No new socket gets the number of a connection whose destructor has closed it and has not yet shut it down. -/
def NotReopened (s : System) (input : Input) : Prop :=
  ∀ o ∈ s.locals, o.calls = some [.shutdown] →
    input ≠ .event (.accept o.sock) ∧ input ≠ .event (.connect o.sock)

instance (s : System) (input : Input) : Decidable (NotReopened s input) :=
  inferInstanceAs (Decidable (∀ o ∈ s.locals, _))

/-- **What holds where no number is given away between the two calls**. -/
structure Vacant (s : System) : Prop where
  owned : Owned s
  vacant : ∀ (i : Nat) o, s.locals[i]? = some o → o.calls = some [.shutdown] → s.shared.table[o.sock]? = none
  harmless : Harmless s

theorem Vacant.init : Vacant init :=
  ⟨.init, fun _ _ h => absurd h (by simp [Process.init]), fun _ h => absurd h List.not_mem_nil⟩

/-- **A step that gives no such number away keeps it.** -/
theorem Vacant.step (h : Vacant s) (hp : NotReopened s input) (hstep : program.step s input = some t) :
    Vacant t := by
  refine ⟨h.owned.step hstep, ?_, ?_⟩
  · intro j q hj hshut
    rcases step_cases hstep with ⟨cls, fd, hinput, -, rfl⟩ | ⟨i, o, hi, -, rfl⟩ |
        ⟨i, o, call, rest, hi, hcalls, rfl⟩
    · rcases getElem?_concat_cases hj with hq | ⟨-, rfl⟩
      · have hne : fd ≠ q.sock := by
          rintro rfl
          obtain ⟨haccept, hconnect⟩ := hp q (List.mem_of_getElem? hq) hshut
          rcases hinput with hinput | hinput
          · exact haccept hinput
          · exact hconnect hinput
        show (s.shared.table.insert fd s.shared.made)[q.sock]? = none
        rw [Std.ExtTreeMap.getElem?_insert, if_neg (by simpa using hne), h.vacant j q hq hshut]
      · cases hshut
    · rcases getElem?_set_cases hj with ⟨-, rfl⟩ | ⟨-, hj⟩
      · cases hshut
      · exact h.vacant j q hj hshut
    · rcases getElem?_set_cases hj with ⟨-, rfl⟩ | ⟨-, hq⟩
      · rcases h.owned.call_cases hi hcalls with ⟨rfl, -, -⟩ | ⟨-, rfl, -⟩
        · exact Std.ExtTreeMap.getElem?_erase_self
        · cases hshut
      · have hnone := h.vacant j q hq hshut
        rcases h.owned.call_cases hi hcalls with ⟨rfl, -, -⟩ | ⟨rfl, -, -⟩
        · show (s.shared.table.erase o.sock)[q.sock]? = none
          rw [Std.ExtTreeMap.getElem?_erase, hnone, ite_self]
        · exact hnone
  · rcases step_cases hstep with ⟨cls, fd, -, -, rfl⟩ | ⟨i, o, hi, -, rfl⟩ | ⟨i, o, call, rest, hi, hcalls, rfl⟩
    · exact h.harmless
    · exact h.harmless
    · intro a ha owner howner
      rw [perform_acted, List.mem_append, List.mem_singleton] at ha
      rcases ha with ha | rfl
      · exact h.harmless a ha owner howner
      · have howner : s.shared.table[o.sock]? = some owner := howner
        rcases h.owned.call_cases hi hcalls with ⟨-, -, hown⟩ | ⟨-, -, hshut⟩
        · rw [h.owned.owns i o hi hown] at howner
          exact (Option.some.inj howner).symm
        · rw [h.vacant i o hi hshut] at howner
          cases howner

/-- **Destructors are harmless** in every run in which no number is given away between the two calls of a
    destructor. -/
theorem destructors_harmless {inputs : List Input} (h : Along program.step NotReopened init inputs) :
    Always program.step Harmless init inputs :=
  h.always Vacant Vacant.step Vacant.harmless .init

/-- The number 5 is used again after the destructor of its first connection is over. -/
theorem destructors_harmless_reused_later :
    Always program.step Harmless init [.event (.accept 5), .thread 0 (), .thread 0 (), .event (.connect 6),
      .thread 0 (), .event (.accept 5)] :=
  destructors_harmless (by decide +kernel)

/-- **The number 5 is used again too early**: a server connection is closed, another thread connects and gets its
    number, and the first destructor shuts the new connection down. -/
theorem destructors_reused :
    (run program.step init [.event (.accept 5), .thread 0 (), .thread 0 (), .event (.connect 5),
        .thread 0 ()]).map (fun s => s.shared.acted) = some [⟨0, .close, some 0⟩, ⟨0, .shutdown, some 1⟩] ∧
      ¬ Always program.step Harmless init [.event (.accept 5), .thread 0 (), .thread 0 (), .event (.connect 5),
        .thread 0 ()] := by
  have hacted : (run program.step init [.event (.accept 5), .thread 0 (), .thread 0 (), .event (.connect 5),
      .thread 0 ()]).map (fun s => s.shared.acted) = some [⟨0, .close, some 0⟩, ⟨0, .shutdown, some 1⟩] := by
    decide +kernel
  refine ⟨hacted, fun h => ?_⟩
  obtain ⟨s, hs, hs'⟩ := Option.map_eq_some_iff.mp hacted
  have hharm := h _ s List.prefix_rfl hs ⟨0, .shutdown, some 1⟩ (by rw [hs']; simp) 1 rfl
  cases hharm

end Process
end Network
end Hiaux
