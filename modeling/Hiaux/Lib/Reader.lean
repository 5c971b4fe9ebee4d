import Hiaux.Lib.Machine

/-!
# `Lib.Reader` — readers with a one-message slot

A `Reader` is how a program offers a `Machine` to its caller: `execute` buffers input and parses until one
message is complete, `has` says whether the slot holds one, `get` hands it out and parses on. The caller
drains the slot after every `execute`.

`Simulates` states what one call of `execute` or `get` must do, in terms of the machine's runs; from it,
`receiveAll_of_runs` gives the whole-stream statement: draining after every chunk delivers exactly what the
machine emits on the input, in whatever chunks the input arrives.
-/

namespace Lib

/-- A reader: `P` is the object, `ε` what its operations may throw. `rounds` bounds the draining loop. -/
structure Reader (P β ω ε : Type) where
  execute : P → List β → P × Option ε
  has : P → Bool
  get : P → ω × P × Option ε
  rounds : P → Nat

/-- What draining gives: the messages delivered, the reader, and what was thrown. -/
structure Drained (P ω ε : Type) where
  outputs : List ω
  reader : P
  thrown : Option ε
deriving DecidableEq, Repr

namespace Reader

variable {P σ β ω ε : Type}

/-- At most `fuel` rounds of `while (has()) deliver(get())`. A message fetched by a call that throws is not
    delivered. -/
def drainLoop (R : Reader P β ω ε) : Nat → P → Drained P ω ε
  | 0, p => ⟨[], p, none⟩
  | fuel + 1, p =>
      if R.has p then
        match R.get p with
        | (_, p', some e) => ⟨[], p', some e⟩
        | (m, p', none) =>
            let r := drainLoop R fuel p'
            ⟨m :: r.outputs, r.reader, r.thrown⟩
      else ⟨[], p, none⟩

/-- The draining loop. -/
def drain (R : Reader P β ω ε) (p : P) : Drained P ω ε := R.drainLoop (R.rounds p) p

/-- One receive: `execute` on the bytes that arrived, then the drain. -/
def receive (R : Reader P β ω ε) (p : P) (d : List β) : Drained P ω ε :=
  match R.execute p d with
  | (p', some e) => ⟨[], p', some e⟩
  | (p', none) => R.drain p'

/-- Receive chunk after chunk up to the first exception; the reader's code may differ from one chunk to
    the next in what the program leaves unspecified. -/
def receiveAll : P → List (Reader P β ω ε × List β) → Drained P ω ε
  | p, [] => ⟨[], p, none⟩
  | p, (R, d) :: cs =>
      match R.receive p d with
      | ⟨os, p', some e⟩ => ⟨os, p', some e⟩
      | ⟨os, p', none⟩ =>
          let r := receiveAll p' cs
          ⟨os ++ r.outputs, r.reader, r.thrown⟩

/-! ## Simulation of a machine -/

variable (M : Machine σ β ω) (phase : P → σ) (buffer : P → List β) (inv : P → Prop)

/-- Where a call that parses may stop, started at machine state `s` with input `b`: with a message in the
    slot, being the only one emitted on the way, or stuck with an empty slot and nothing emitted. -/
def Stops (R : Reader P β ω ε) (s : σ) (b : List β) (p : P) : Prop :=
  (R.has p = true ∧ M.Runs s b [(R.get p).1] (phase p) (buffer p)) ∨
  (R.has p = false ∧ M.Runs s b [] (phase p) (buffer p) ∧ M.Stuck (phase p) (buffer p))

/-- One call follows the machine and keeps the reader's invariant, as long as the machine's run ends in an
    `ok` state. A call of `get` that finds another message consumes input, which is what makes draining
    end. -/
structure Simulates (R : Reader P β ω ε) (ok : σ → Prop) : Prop where
  execute : ∀ {p d os t c}, inv p → R.has p = false →
    M.Runs (phase p) (buffer p ++ d) os t c → M.Stuck t c → ok t →
    ∃ p', R.execute p d = (p', none) ∧ inv p' ∧ Stops M phase buffer R (phase p) (buffer p ++ d) p'
  get : ∀ {p os t c}, inv p → R.has p = true →
    M.Runs (phase p) (buffer p) os t c → M.Stuck t c → ok t →
    ∃ p', (R.get p).2 = (p', none) ∧ inv p' ∧ Stops M phase buffer R (phase p) (buffer p) p' ∧
      (R.has p' = true → (buffer p').length < (buffer p).length)
  rounds : ∀ p, (buffer p).length < R.rounds p

variable {M phase buffer inv} {R : Reader P β ω ε} {ok : σ → Prop}

/-- A reader with its exceptions seen differently. -/
def mapThrown {ε' : Type} (f : ε → ε') (R : Reader P β ω ε) : Reader P β ω ε' where
  execute p d := ((R.execute p d).1, (R.execute p d).2.map f)
  has := R.has
  get p := ((R.get p).1, (R.get p).2.1, (R.get p).2.2.map f)
  rounds := R.rounds

/-- As long as nothing is thrown, how exceptions are seen makes no difference. -/
theorem Simulates.mapThrown {ε' : Type} (f : ε → ε') (h : Simulates M phase buffer inv R ok) :
    Simulates M phase buffer inv (R.mapThrown f) ok where
  execute := by
    intro p d os t c hi hp hrun ht hok
    obtain ⟨p', hexec, hrest⟩ := h.execute hi hp hrun ht hok
    refine ⟨p', ?_, hrest⟩
    show ((R.execute p d).1, (R.execute p d).2.map f) = (p', none)
    rw [hexec]
    rfl
  get := by
    intro p os t c hi hp hrun ht hok
    obtain ⟨p', hget, hrest⟩ := h.get hi hp hrun ht hok
    refine ⟨p', ?_, hrest⟩
    show ((R.get p).2.1, (R.get p).2.2.map f) = (p', none)
    rw [hget]
    rfl
  rounds := h.rounds

/-- With an empty slot there is nothing to drain. -/
theorem drain_of_not_has (R : Reader P β ω ε) {p : P} (h : R.has p = false) : R.drain p = ⟨[], p, none⟩ := by
  unfold drain
  cases R.rounds p with
  | zero => rfl
  | succ fuel =>
      rw [drainLoop, h]
      rfl

/-- A silent machine step before the place where a call stops. -/
theorem Stops.head {s s' : σ} {b b' : List β} {p : P} (hstep : M.step s b = some (s', b', []))
    (h : Stops M phase buffer R s' b' p) : Stops M phase buffer R s b p := by
  rcases h with ⟨hp, hrun⟩ | ⟨hp, hrun, hstuck⟩
  · exact Or.inl ⟨hp, Machine.Runs.head hstep hrun⟩
  · exact Or.inr ⟨hp, Machine.Runs.head hstep hrun, hstuck⟩

/-- **Draining delivers what is in the slot and then everything the machine emits.** The induction is on
    the rounds left; every round that finds another message has shortened the buffer. -/
theorem drainLoop_full (hsim : Simulates M phase buffer inv R ok) {t : σ} {c : List β} (ht : M.Stuck t c)
    (hok : ok t) :
    ∀ (fuel : Nat) {p : P} {os : List ω}, inv p → R.has p = true → (buffer p).length < fuel →
      M.Runs (phase p) (buffer p) os t c →
      ∃ p', R.drainLoop fuel p = ⟨(R.get p).1 :: os, p', none⟩ ∧ inv p' ∧ R.has p' = false ∧
        phase p' = t ∧ buffer p' = c := by
  intro fuel
  induction fuel with
  | zero => intro p os _ _ hlt; exact absurd hlt (Nat.not_lt_zero _)
  | succ k ih =>
      intro p os hi hp hlt hrun
      obtain ⟨p', hget, hi', hstop, hshort⟩ := hsim.get hi hp hrun ht hok
      have hget' : R.get p = ((R.get p).1, p', none) := by rw [← hget]
      have hround : R.drainLoop (k + 1) p =
          ⟨(R.get p).1 :: (R.drainLoop k p').outputs, (R.drainLoop k p').reader,
            (R.drainLoop k p').thrown⟩ := by
        rw [drainLoop, if_pos hp, hget']
      rcases hstop with ⟨hp', hrun'⟩ | ⟨hp', hrun', hstuck'⟩
      · obtain ⟨os', rfl, hrest⟩ := hrun'.extend hrun ht
        obtain ⟨q, hq, hq'⟩ := ih hi' hp' (by have := hshort hp'; omega) hrest
        exact ⟨q, by rw [hround, hq]; rfl, hq'⟩
      · obtain ⟨rfl, rfl, rfl⟩ := hrun'.unique hstuck' hrun ht
        have hdone : R.drainLoop k p' = ⟨[], p', none⟩ := by
          cases k with
          | zero => rfl
          | succ k => rw [drainLoop, hp']; rfl
        exact ⟨p', by rw [hround, hdone], hi', hp', rfl, rfl⟩

/-- One receive delivers what the machine emits on the input it has now. -/
theorem receive_of_runs (hsim : Simulates M phase buffer inv R ok) {p : P} {d c : List β} {os : List ω} {t : σ}
    (hi : inv p) (hp : R.has p = false) (hrun : M.Runs (phase p) (buffer p ++ d) os t c)
    (ht : M.Stuck t c) (hok : ok t) :
    ∃ p', R.receive p d = ⟨os, p', none⟩ ∧ inv p' ∧ R.has p' = false ∧ phase p' = t ∧ buffer p' = c := by
  obtain ⟨q, hexec, hiq, hstop⟩ := hsim.execute hi hp hrun ht hok
  have hrec : R.receive p d = R.drainLoop (R.rounds q) q := by rw [receive, hexec]; rfl
  rw [hrec]
  rcases hstop with ⟨hq, hrun'⟩ | ⟨hq, hrun', hstuck'⟩
  · obtain ⟨os', rfl, hrest⟩ := hrun'.extend hrun ht
    exact drainLoop_full hsim ht hok _ hiq hq (hsim.rounds q) hrest
  · obtain ⟨rfl, rfl, rfl⟩ := hrun'.unique hstuck' hrun ht
    refine ⟨q, ?_, hiq, hq, rfl, rfl⟩
    cases R.rounds q with
    | zero => rfl
    | succ k => rw [drainLoop, hq]; rfl

/-- Receiving chunk by chunk follows the machine's feed. -/
theorem receiveAll_of_feed (hdead : M.DeadOutside ok) {has : P → Bool} {s u : σ} {b e : List β}
    {ds : List (List β)} {os : List ω} (hfeed : M.Feed s b ds os u e) (hok : ok u) :
    ∀ {p : P} {cs : List (Reader P β ω ε × List β)}, cs.map Prod.snd = ds →
      (∀ c ∈ cs, Simulates M phase buffer inv c.1 ok) → (∀ c ∈ cs, c.1.has = has) →
      inv p → has p = false → phase p = s → buffer p = b →
      ∃ p', receiveAll p cs = ⟨os, p', none⟩ ∧ inv p' ∧ has p' = false ∧ phase p' = u ∧
        buffer p' = e := by
  induction hfeed with
  | nil =>
      intro p cs hcs _ _ hi hp hs hb
      obtain rfl := List.map_eq_nil_iff.mp hcs
      exact ⟨p, rfl, hi, hp, hs, hb⟩
  | @cons s b d ds os os' t c u e hrun hstuck hrest ih =>
      intro p cs hcs hsim hhas hi hp hs hb
      obtain ⟨⟨Q, d'⟩, cs', rfl, hd, hds⟩ := List.map_eq_cons_iff.mp hcs
      obtain rfl : d' = d := hd
      subst hs hb
      have hokt : ok t := hrest.runs.ok_of_ok hdead hok
      have hQ : Q.has = has := hhas (Q, d') (by simp)
      obtain ⟨q, hrec, hiq, hq, hqt, hqc⟩ :=
        receive_of_runs (hsim (Q, d') (by simp)) hi (by rw [hQ]; exact hp) hrun hstuck hokt
      obtain ⟨p', hall, hp'⟩ := ih hok hds (fun x hx => hsim x (by simp [hx]))
        (fun x hx => hhas x (by simp [hx])) hiq (by rw [← hQ]; exact hq) hqt hqc
      exact ⟨p', by rw [receiveAll, hrec]; simp only [hall], hp'⟩

/-- **Whole streams.** If the machine, on the input the chunks make up and possibly more, gets stuck in an
    `ok` state, then receiving the chunks throws nothing and delivers what the machine emits on them: a
    prefix of what it emits on everything, and all of it when there is no more. -/
theorem receiveAll_of_runs (hdead : M.DeadOutside ok) {has : P → Bool} {p : P}
    {cs : List (Reader P β ω ε × List β)} (hsim : ∀ c ∈ cs, Simulates M phase buffer inv c.1 ok)
    (hhas : ∀ c ∈ cs, c.1.has = has) (hi : inv p) (hp : has p = false)
    (hstuck : M.Stuck (phase p) (buffer p)) {rest c : List β} {os : List ω} {t : σ}
    (hrun : M.Runs (phase p) (buffer p ++ ((cs.map Prod.snd).flatten ++ rest)) os t c)
    (ht : M.Stuck t c) (hok : ok t) :
    ∃ os' p', receiveAll p cs = ⟨os', p', none⟩ ∧ inv p' ∧ os' <+: os ∧
      (rest = [] → os' = os ∧ phase p' = t ∧ buffer p' = c) := by
  obtain ⟨os', u, e, hfeed⟩ := M.exists_feed (phase p) (buffer p) (cs.map Prod.snd)
  have hall := hfeed.runs.append_input rest
  rw [List.append_assoc] at hall
  obtain ⟨os'', rfl, hmore⟩ := hall.extend hrun ht
  obtain ⟨p', hrec, hi', _, hu, he⟩ := receiveAll_of_feed hdead hfeed (hmore.ok_of_ok hdead hok) rfl
    hsim hhas hi hp rfl rfl
  refine ⟨os', p', hrec, hi', List.prefix_append os' os'', ?_⟩
  rintro rfl
  rw [List.append_nil] at hmore
  obtain ⟨rfl, rfl, rfl⟩ := hmore.of_stuck (hfeed.stuck hstuck)
  exact ⟨(List.append_nil os').symm, hu, he⟩

/-! ## Invariants -/

/-- A reader keeps an invariant, and hands out messages with a property. -/
structure Keeps (R : Reader P β ω ε) (Inv : P → Prop) (Q : ω → Prop) : Prop where
  execute : ∀ {p} (d : List β), Inv p → Inv (R.execute p d).1
  get : ∀ {p}, Inv p → R.has p = true → Q (R.get p).1 ∧ Inv (R.get p).2.1

section

variable {R : Reader P β ω ε} {Inv : P → Prop} {Q : ω → Prop}

theorem Keeps.drainLoop (h : R.Keeps Inv Q) {p : P} (hp : Inv p) (fuel : Nat) :
    (∀ m ∈ (R.drainLoop fuel p).outputs, Q m) ∧ Inv (R.drainLoop fuel p).reader := by
  induction fuel generalizing p with
  | zero => exact ⟨fun m hm => absurd hm List.not_mem_nil, hp⟩
  | succ fuel ih =>
      unfold Reader.drainLoop
      split
      · rename_i hhas
        obtain ⟨hQ, hInv⟩ := h.get hp hhas
        split
        · rename_i heq
          rw [heq] at hInv
          exact ⟨fun m hm => absurd hm List.not_mem_nil, hInv⟩
        · rename_i heq
          rw [heq] at hInv hQ
          obtain ⟨hrest, hlast⟩ := ih hInv
          refine ⟨?_, hlast⟩
          intro m hm
          rcases List.mem_cons.mp hm with rfl | hm
          · exact hQ
          · exact hrest m hm
      · exact ⟨fun m hm => absurd hm List.not_mem_nil, hp⟩

theorem Keeps.receive (h : R.Keeps Inv Q) {p : P} (hp : Inv p) (d : List β) :
    (∀ m ∈ (R.receive p d).outputs, Q m) ∧ Inv (R.receive p d).reader := by
  have hexec := h.execute d hp
  unfold Reader.receive
  split
  · rename_i heq
    rw [heq] at hexec
    exact ⟨fun m hm => absurd hm List.not_mem_nil, hexec⟩
  · rename_i heq
    rw [heq] at hexec
    exact h.drainLoop hexec _

/-- **What a reader keeps, it keeps over a whole stream.** -/
theorem outputs_receiveAll {cs : List (Reader P β ω ε × List β)} (h : ∀ c ∈ cs, c.1.Keeps Inv Q) {p : P}
    (hp : Inv p) : ∀ m ∈ (receiveAll p cs).outputs, Q m := by
  induction cs generalizing p with
  | nil => exact fun m hm => absurd hm List.not_mem_nil
  | cons c cs ih =>
      obtain ⟨R, d⟩ := c
      obtain ⟨hout, hInv⟩ := (h (R, d) List.mem_cons_self).receive hp d
      unfold receiveAll
      split
      · rename_i heq
        rw [heq] at hout
        exact hout
      · rename_i heq
        rw [heq] at hout hInv
        intro m hm
        rcases List.mem_append.mp hm with hm | hm
        · exact hout m hm
        · exact ih (fun c hc => h c (List.mem_cons_of_mem _ hc)) hInv m hm

end

end Reader

end Lib
