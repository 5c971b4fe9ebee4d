import Hiaux.Threads.Locks

/-!
# `Threads.Correctness.Guards` — each acquisition is released once, by careful programs

An acquisition has been released so often, and so many destructors of its guards are still due to release it: the sum
is its `tally`. It begins with one and never falls. A copy of a guard that is due adds one, and so does an `unlock`
behind which the destructor is due as before. Programs that do neither release everything exactly once, and once all
guards are gone, only they do (`released_once_iff`).
-/

namespace Hiaux
namespace Threads

open Lib Lib.Threads

/-! ## Guards -/

namespace Guard

/-- The destructor releases the lock. -/
def due : Guard → Bool
  | read _ => true
  | write g => g.locked

theorem due_copy (g : Guard) : g.copy.due = g.due := by
  cases g <;> rfl

theorem lock_copy (g : Guard) : g.copy.lock = g.lock := by
  cases g <;> rfl

theorem lock_unlock (g : Guard) : g.unlock.1.lock = g.lock := by
  cases g <;> rfl

/-- `unlock` always releases. -/
theorem calls_unlock (g : Guard) : g.unlock.2 = [⟨g.lock, .unlock⟩] := by
  cases g <;> rfl

theorem destroy_eq (g : Guard) : g.destroy = if g.due then [⟨g.lock, .unlock⟩] else [] := by
  cases g <;> rfl

/-- A write guard with this `m_locked`. -/
def isWrite (locked : Bool) : Guard → Bool
  | read _ => false
  | write g => g.locked == locked

theorem due_of_isWrite {g : Guard} {locked : Bool} (h : g.isWrite locked = true) : g.due = locked := by
  cases g with
  | read g => cases h
  | write g => exact beq_iff_eq.mp h

theorem isWrite_false_of_not_due {g : Guard} (h : g.due = false) : g.isWrite false = true := by
  cases g with
  | read g => cases h
  | write g => exact beq_iff_eq.mpr h

/-- A write guard that is unlocked is due no more. -/
theorem due_unlock {g : Guard} (h : g.isWrite true = true) : g.unlock.1.due = false := by
  cases g with
  | read g => cases h
  | write g => rfl

/-- What was due before an `unlock` that is one too many is due behind it. -/
theorem due_unlock_of_not_isWrite {g : Guard} (h : g.isWrite true = false) : g.unlock.1.due = g.due := by
  cases g with
  | read g => rfl
  | write g =>
      cases hlocked : g.locked with
      | true =>
          rw [isWrite, hlocked] at h
          cases h
      | false => exact hlocked.symm

end Guard

namespace Guards

variable {s t : Guards} {action : Action} {a : Nat}

/-! ## What a step can do -/

theorem held_eq_some_iff {i : Nat} {h : Held} : s.held i = some h ↔ s.guards[i]? = some (some h) :=
  Option.join_eq_some_iff

theorem step_cases (hstep : step s action = some t) :
    (∃ g op, (∃ l, action = .read l ∨ action = .write l) ∧ g.due = true ∧ op ≠ .unlock ∧
      t = s.acquire g [⟨g.lock, op⟩]) ∨
    (∃ i h, action = .copy i ∧ s.guards[i]? = some (some h) ∧
      t = { s with guards := s.guards ++ [some { h with guard := h.guard.copy }] }) ∨
    (∃ i h, action = .unlock i ∧ s.guards[i]? = some (some h) ∧
      t = record { s with guards := s.guards.set i (some { h with guard := h.guard.unlock.1 }) } h.acquisition
        [⟨h.guard.lock, .unlock⟩]) ∨
    (∃ i h, action = .destroy i ∧ s.guards[i]? = some (some h) ∧
      t = record { s with guards := s.guards.set i none } h.acquisition
        (if h.guard.due then [⟨h.guard.lock, .unlock⟩] else [])) := by
  cases action with
  | read l =>
      obtain rfl := Option.some.inj hstep
      exact Or.inl ⟨.read l.read.1, .rdlock, ⟨l, Or.inl rfl⟩, rfl, by decide, rfl⟩
  | write l =>
      obtain rfl := Option.some.inj hstep
      exact Or.inl ⟨.write l.write.1, .wrlock, ⟨l, Or.inr rfl⟩, rfl, by decide, rfl⟩
  | copy i =>
      obtain ⟨h, hheld, rfl⟩ := Option.map_eq_some_iff.mp hstep
      exact Or.inr (Or.inl ⟨i, h, rfl, held_eq_some_iff.mp hheld, rfl⟩)
  | unlock i =>
      obtain ⟨h, hheld, rfl⟩ := Option.map_eq_some_iff.mp hstep
      refine Or.inr (Or.inr (Or.inl ⟨i, h, rfl, held_eq_some_iff.mp hheld, ?_⟩))
      rw [Guard.calls_unlock]
  | destroy i =>
      obtain ⟨h, hheld, rfl⟩ := Option.map_eq_some_iff.mp hstep
      refine Or.inr (Or.inr (Or.inr ⟨i, h, rfl, held_eq_some_iff.mp hheld, ?_⟩))
      rw [Guard.destroy_eq]

/-! ## The tally of an acquisition -/

/-- Whether a guard is one of an acquisition, and due. -/
def dueFor (a : Nat) : Option Held → Nat
  | some h => if h.acquisition = a ∧ h.guard.due then 1 else 0
  | none => 0

theorem dueFor_of_due {h : Held} (hdue : h.guard.due = true) (a : Nat) :
    dueFor a (some h) = if h.acquisition = a then 1 else 0 := by
  unfold dueFor
  simp only [hdue, and_true]

theorem dueFor_of_not_due {h : Held} (hdue : h.guard.due = false) (a : Nat) : dueFor a (some h) = 0 := by
  unfold dueFor
  simp only [hdue, Bool.false_eq_true, and_false, if_false]

/-- The releases made, and those that destructors are due to make. -/
def tally (s : Guards) (a : Nat) : Nat := s.releases a + total (dueFor a) s.guards

theorem releases_record (s : Guards) (acquisition : Nat) (lock : Nat) (op : RWLockOp) (a : Nat) :
    (s.record acquisition [⟨lock, op⟩]).releases a =
      s.releases a + if acquisition = a ∧ op = .unlock then 1 else 0 := by
  unfold releases record
  rw [List.countP_append, List.map_singleton, List.countP_singleton]
  simp only [decide_eq_true_eq]

/-- A new acquisition has one guard, which is due. -/
theorem tally_acquire {g : Guard} (hdue : g.due = true) {op : RWLockOp} (hop : op ≠ .unlock) (a : Nat) :
    tally (s.acquire g [⟨g.lock, op⟩]) a = tally s a + if s.acquired = a then 1 else 0 := by
  unfold tally acquire
  rw [releases_record, if_neg (fun h => hop h.2)]
  show s.releases a + 0 + total (dueFor a) (s.guards ++ [some ⟨s.acquired, g⟩]) = _
  rw [total_append, total_singleton, dueFor_of_due hdue, Nat.add_zero, Nat.add_assoc]

/-- **A copy of a guard that is due adds one.** -/
theorem tally_copy (h : Held) (a : Nat) :
    tally { s with guards := s.guards ++ [some { h with guard := h.guard.copy }] } a =
      tally s a + dueFor a (some h) := by
  have hcopy : dueFor a (some { h with guard := h.guard.copy }) = dueFor a (some h) := by
    rw [dueFor, Guard.due_copy, dueFor]
  show s.releases a + total (dueFor a) (s.guards ++ [_]) = _
  rw [total_append, total_singleton, hcopy, ← Nat.add_assoc]
  rfl

/-- **An `unlock` adds one**, less what it takes off the destructor. -/
theorem tally_unlock {i : Nat} {h : Held} (hi : s.guards[i]? = some (some h)) (a : Nat) :
    tally (record { s with guards := s.guards.set i (some { h with guard := h.guard.unlock.1 }) } h.acquisition
        [⟨h.guard.lock, .unlock⟩]) a + dueFor a (some h) =
      tally s a + dueFor a (some { h with guard := h.guard.unlock.1 }) + if h.acquisition = a then 1 else 0 := by
  have htotal := total_set (dueFor a) hi (some { h with guard := h.guard.unlock.1 })
  unfold tally
  rw [releases_record]
  simp only [and_true]
  show s.releases a + _ + total (dueFor a) (s.guards.set i _) + _ = _
  omega

/-- A destructor makes the release that it is due to make. -/
theorem tally_destroy {i : Nat} {h : Held} (hi : s.guards[i]? = some (some h)) (a : Nat) :
    tally (record { s with guards := s.guards.set i none } h.acquisition
        (if h.guard.due then [⟨h.guard.lock, .unlock⟩] else [])) a = tally s a := by
  have htotal : total (dueFor a) (s.guards.set i none) + dueFor a (some h) = total (dueFor a) s.guards :=
    total_set (dueFor a) hi none
  cases hdue : h.guard.due with
  | true =>
      rw [dueFor_of_due hdue] at htotal
      unfold tally
      rw [if_pos rfl, releases_record]
      simp only [and_true]
      show s.releases a + _ + total (dueFor a) (s.guards.set i none) = _
      omega
  | false =>
      rw [dueFor_of_not_due hdue, Nat.add_zero] at htotal
      show List.countP _ (s.events ++ []) + total (dueFor a) (s.guards.set i none) = _
      rw [List.append_nil, htotal]
      rfl

/-- No step makes less of a tally. -/
theorem tally_le (hstep : step s action = some t) (a : Nat) : tally s a ≤ tally t a := by
  rcases step_cases hstep with ⟨g, op, -, hdue, hop, rfl⟩ | ⟨i, h, -, hi, rfl⟩ | ⟨i, h, -, hi, rfl⟩ |
      ⟨i, h, -, hi, rfl⟩
  · rw [tally_acquire hdue hop]
    exact Nat.le_add_right _ _
  · rw [tally_copy]
    exact Nat.le_add_right _ _
  · have htally := tally_unlock hi a
    have hdue : dueFor a (some h) ≤ if h.acquisition = a then 1 else 0 := by
      cases hdue : h.guard.due with
      | true => exact (dueFor_of_due hdue a).le
      | false => exact (dueFor_of_not_due hdue a).trans_le (Nat.zero_le _)
    omega
  · exact (tally_destroy hi a).ge

/-! ## Whose lock is released -/

/-- The lock at this address was taken for an acquisition. -/
def Took (s : Guards) (a lock : Nat) : Prop := ∃ op, op ≠ .unlock ∧ ⟨a, ⟨lock, op⟩⟩ ∈ s.events

/-- **What holds in every run**: the guards are for acquisitions that were made, of the lock that was taken then, and
    so are the releases. -/
structure Numbered (s : Guards) : Prop where
  made : ∀ h, some h ∈ s.guards → h.acquisition < s.acquired
  took : ∀ h, some h ∈ s.guards → s.Took h.acquisition h.guard.lock
  own : ∀ e ∈ s.events, e.call.op = .unlock → s.Took e.acquisition e.call.lock

theorem Numbered.init : Numbered init :=
  ⟨fun _ h => absurd h List.not_mem_nil, fun _ h => absurd h List.not_mem_nil, fun _ h => absurd h List.not_mem_nil⟩

/-- A new acquisition. -/
theorem Numbered.acquire (hs : Numbered s) (g : Guard) {op : RWLockOp} (hop : op ≠ .unlock) :
    Numbered (s.acquire g [⟨g.lock, op⟩]) := by
  have hevents : (s.acquire g [⟨g.lock, op⟩]).events = s.events ++ [⟨s.acquired, ⟨g.lock, op⟩⟩] := rfl
  have hkeep : ∀ {a lock}, s.Took a lock → (s.acquire g [⟨g.lock, op⟩]).Took a lock := by
    rintro a lock ⟨op', hop', hmem⟩
    exact ⟨op', hop', List.mem_append_left _ hmem⟩
  have hguard : ∀ h, some h ∈ (s.acquire g [⟨g.lock, op⟩]).guards →
      some h ∈ s.guards ∨ h = ⟨s.acquired, g⟩ := by
    intro h hmem
    rcases List.mem_append.mp hmem with hmem | hmem
    · exact Or.inl hmem
    · exact Or.inr (Option.some.inj (List.mem_singleton.mp hmem))
  refine ⟨?_, ?_, ?_⟩
  · intro h hmem
    rcases hguard h hmem with hmem | rfl
    · exact Nat.lt_succ_of_lt (hs.made h hmem)
    · exact Nat.lt_succ_self _
  · intro h hmem
    rcases hguard h hmem with hmem | rfl
    · exact hkeep (hs.took h hmem)
    · exact ⟨op, hop, List.mem_append_right _ List.mem_cons_self⟩
  · intro e hmem hunlock
    rw [hevents, List.mem_append, List.mem_singleton] at hmem
    rcases hmem with hmem | rfl
    · exact hkeep (hs.own e hmem hunlock)
    · exact absurd hunlock hop

/-- Guards that are copied, changed or destroyed, and release what was theirs. -/
theorem Numbered.move (hs : Numbered s) {h : Held} (hmem : some h ∈ s.guards) (hacquired : t.acquired = s.acquired)
    (hguards : ∀ h', some h' ∈ t.guards →
      some h' ∈ s.guards ∨ (h'.acquisition = h.acquisition ∧ h'.guard.lock = h.guard.lock))
    (hevents : t.events = s.events ∨ t.events = s.events ++ [⟨h.acquisition, ⟨h.guard.lock, .unlock⟩⟩]) :
    Numbered t := by
  have hkeep : ∀ {a lock}, s.Took a lock → t.Took a lock := by
    rintro a lock ⟨op, hop, he⟩
    refine ⟨op, hop, ?_⟩
    rcases hevents with hevents | hevents
    · rwa [hevents]
    · rw [hevents]
      exact List.mem_append_left _ he
  refine ⟨?_, ?_, ?_⟩
  · intro h' hmem'
    rw [hacquired]
    rcases hguards h' hmem' with hmem' | ⟨hacq, -⟩
    · exact hs.made h' hmem'
    · rw [hacq]
      exact hs.made h hmem
  · intro h' hmem'
    rcases hguards h' hmem' with hmem' | ⟨hacq, hlock⟩
    · exact hkeep (hs.took h' hmem')
    · rw [hacq, hlock]
      exact hkeep (hs.took h hmem)
  · intro e he hunlock
    have hcases : e ∈ s.events ∨ e = ⟨h.acquisition, ⟨h.guard.lock, .unlock⟩⟩ := by
      rcases hevents with hevents | hevents
      · exact Or.inl (hevents ▸ he)
      · rwa [hevents, List.mem_append, List.mem_singleton] at he
    rcases hcases with he | rfl
    · exact hkeep (hs.own e he hunlock)
    · exact hkeep (hs.took h hmem)

/-- **Every step keeps it.** -/
theorem Numbered.step (hs : Numbered s) (hstep : step s action = some t) : Numbered t := by
  rcases step_cases hstep with ⟨g, op, -, -, hop, rfl⟩ | ⟨i, h, -, hi, rfl⟩ | ⟨i, h, -, hi, rfl⟩ |
      ⟨i, h, -, hi, rfl⟩
  · exact hs.acquire g hop
  · apply hs.move (List.mem_of_getElem? hi)
    · rfl
    · intro h' hmem
      rcases List.mem_append.mp hmem with hmem | hmem
      · exact Or.inl hmem
      · obtain rfl := Option.some.inj (List.mem_singleton.mp hmem)
        exact Or.inr ⟨rfl, h.guard.lock_copy⟩
    · exact Or.inl rfl
  · apply hs.move (List.mem_of_getElem? hi)
    · rfl
    · intro h' hmem
      rcases List.mem_or_eq_of_mem_set hmem with hmem | heq
      · exact Or.inl hmem
      · obtain rfl := Option.some.inj heq
        exact Or.inr ⟨rfl, h.guard.lock_unlock⟩
    · exact Or.inr rfl
  · apply hs.move (List.mem_of_getElem? hi)
    · rfl
    · intro h' hmem
      rcases List.mem_or_eq_of_mem_set hmem with hmem | heq
      · exact Or.inl hmem
      · cases heq
    · cases h.guard.due with
      | true => exact Or.inr rfl
      | false => exact Or.inl (List.append_nil _)

/-! ## Careful programs -/

/-- An action that leaves the tally alone: only write guards are copied, and only when they have been unlocked; only
    they are unlocked, and only when they have not. -/
def careful (s : Guards) : Action → Bool
  | .copy i => (s.held i).all (·.guard.isWrite false)
  | .unlock i => (s.held i).all (·.guard.isWrite true)
  | _ => true

theorem careful_copy {i : Nat} {h : Held} (hi : s.guards[i]? = some (some h)) :
    careful s (.copy i) = h.guard.isWrite false := by
  rw [careful, held_eq_some_iff.mpr hi, Option.all_some]

theorem careful_unlock {i : Nat} {h : Held} (hi : s.guards[i]? = some (some h)) :
    careful s (.unlock i) = h.guard.isWrite true := by
  rw [careful, held_eq_some_iff.mpr hi, Option.all_some]

/-- **What holds while a program is careful.** -/
structure Settled (s : Guards) : Prop extends Numbered s where
  tally : ∀ a, tally s a = if a < s.acquired then 1 else 0

theorem Settled.init : Settled init := ⟨.init, fun _ => rfl⟩

/-- **A careful step keeps it.** -/
theorem Settled.step (hs : Settled s) (hcareful : careful s action = true) (hstep : step s action = some t) :
    Settled t := by
  refine ⟨hs.toNumbered.step hstep, ?_⟩
  intro a
  have htally := hs.tally a
  rcases step_cases hstep with ⟨g, op, -, hdue, hop, rfl⟩ | ⟨i, h, rfl, hi, rfl⟩ | ⟨i, h, rfl, hi, rfl⟩ |
      ⟨i, h, rfl, hi, rfl⟩
  · rw [tally_acquire hdue hop, htally]
    show _ = if a < s.acquired + 1 then 1 else 0
    split <;> split <;> split <;> omega
  · rw [careful_copy hi] at hcareful
    rw [tally_copy, dueFor_of_not_due (Guard.due_of_isWrite hcareful), htally]
    rfl
  · rw [careful_unlock hi] at hcareful
    have hunlock := tally_unlock hi a
    rw [dueFor_of_due (Guard.due_of_isWrite hcareful),
      dueFor_of_not_due (Guard.due_unlock hcareful), htally] at hunlock
    exact Nat.add_right_cancel hunlock
  · rw [tally_destroy hi, htally]
    rfl

/-- An acquisition with more than one release made or due. -/
def Surplus (s : Guards) : Prop := ∃ a, 1 < tally s a

theorem Surplus.step (hs : Surplus s) (hstep : step s action = some t) : Surplus t := by
  obtain ⟨a, ha⟩ := hs
  exact ⟨a, Nat.lt_of_lt_of_le ha (tally_le hstep a)⟩

/-- **A careless step is one release too many.** -/
theorem Settled.surplus (hs : Settled s) (hcareless : ¬ careful s action = true)
    (hstep : s.step action = some t) : Surplus t := by
  have hone : ∀ {h : Held} {i : Nat}, s.guards[i]? = some (some h) → Guards.tally s h.acquisition = 1 := by
    intro h i hi
    rw [hs.tally, if_pos (hs.made h (List.mem_of_getElem? hi))]
  rcases step_cases hstep with ⟨g, op, ⟨l, rfl | rfl⟩, -⟩ | ⟨i, h, rfl, hi, rfl⟩ | ⟨i, h, rfl, hi, rfl⟩ |
      ⟨i, h, rfl, hi, rfl⟩
  · exact absurd rfl hcareless
  · exact absurd rfl hcareless
  · refine ⟨h.acquisition, ?_⟩
    rw [careful_copy hi] at hcareless
    have hdue : h.guard.due = true := by
      by_contra hnot
      exact hcareless (Guard.isWrite_false_of_not_due (Bool.eq_false_of_not_eq_true hnot))
    rw [tally_copy, dueFor_of_due hdue, if_pos rfl, hone hi]
    exact Nat.lt_succ_self 1
  · refine ⟨h.acquisition, ?_⟩
    rw [careful_unlock hi] at hcareless
    have hsame := Guard.due_unlock_of_not_isWrite (Bool.eq_false_of_not_eq_true hcareless)
    have hunlock := tally_unlock hi h.acquisition
    have hdue : dueFor h.acquisition (some { h with guard := h.guard.unlock.1 }) = dueFor h.acquisition (some h) := by
      rw [dueFor, hsame, dueFor]
    rw [hdue, hone hi, if_pos rfl] at hunlock
    omega
  · exact absurd rfl hcareless

/-! ## Every acquisition is released once -/

/-- The guards of an acquisition are all destroyed. -/
def Gone (s : Guards) (a : Nat) : Prop := ∀ h, some h ∈ s.guards → h.acquisition ≠ a

/-- A release is of the lock that the acquisition took, no acquisition is released again, and one whose guards are
    all destroyed has been released. -/
structure ReleasedOnce (s : Guards) : Prop where
  own : ∀ e ∈ s.events, e.call.op = .unlock → s.Took e.acquisition e.call.lock
  once : ∀ a, s.releases a ≤ 1
  released : ∀ a < s.acquired, s.Gone a → s.releases a = 1

theorem total_dueFor_of_gone (hgone : s.Gone a) : total (dueFor a) s.guards = 0 := by
  apply total_eq_zero
  intro o ho
  cases o with
  | none => rfl
  | some h => exact if_neg fun hboth => hgone h ho hboth.1

theorem Settled.releasedOnce (hs : Settled s) : ReleasedOnce s := by
  refine ⟨hs.own, ?_, ?_⟩
  · intro a
    have htally := hs.tally a
    rw [Guards.tally] at htally
    split at htally <;> omega
  · intro a ha hgone
    have htally := hs.tally a
    rw [Guards.tally, total_dueFor_of_gone hgone, if_pos ha] at htally
    exact htally

/-- **Which programs release every acquisition exactly once**: those that are careful, and of the programs that
    destroy all their guards no others. -/
theorem released_once_iff {actions : List Action} (hrun : run step init actions = some s) :
    (Along step (fun s action => careful s action = true) init actions → Always step ReleasedOnce init actions) ∧
      ((∀ a, s.Gone a) → (Always step ReleasedOnce init actions ↔
        Along step (fun s action => careful s action = true) init actions)) := by
  have hforth : Along step (fun s action => careful s action = true) init actions →
      Always step ReleasedOnce init actions :=
    fun h => h.always Settled Settled.step Settled.releasedOnce .init
  refine ⟨hforth, ?_⟩
  intro hgone
  refine ⟨?_, hforth⟩
  intro halways
  have hend : ¬ Surplus s := by
    rintro ⟨a, ha⟩
    have honce := (halways actions s List.prefix_rfl hrun).once a
    rw [tally, total_dueFor_of_gone (hgone a)] at ha
    omega
  exact along_of_not_lost Settled Surplus Settled.step Settled.surplus Surplus.step .init hrun hend

/-- A read guard, and a write guard that is unlocked before it is copied. -/
theorem released_once_iff_unlocked_first :
    (∀ a, Gone ⟨[none, none, none], 2,
      [⟨0, ⟨7, .wrlock⟩⟩, ⟨0, ⟨7, .unlock⟩⟩, ⟨1, ⟨7, .rdlock⟩⟩, ⟨1, ⟨7, .unlock⟩⟩]⟩ a) ∧
    Along step (fun s action => careful s action = true) init
      [.write ⟨7⟩, .unlock 0, .copy 0, .read ⟨7⟩, .destroy 0, .destroy 2, .destroy 1] ∧
    Always step ReleasedOnce init
      [.write ⟨7⟩, .unlock 0, .copy 0, .read ⟨7⟩, .destroy 0, .destroy 2, .destroy 1] := by
  have hgone : ∀ a, Gone ⟨[none, none, none], 2,
      [⟨0, ⟨7, .wrlock⟩⟩, ⟨0, ⟨7, .unlock⟩⟩, ⟨1, ⟨7, .rdlock⟩⟩, ⟨1, ⟨7, .unlock⟩⟩]⟩ a := by
    intro a h hmem
    simp at hmem
  have hcareful : Along step (fun s action => careful s action = true) init
      [.write ⟨7⟩, .unlock 0, .copy 0, .read ⟨7⟩, .destroy 0, .destroy 2, .destroy 1] := by decide
  exact ⟨hgone, hcareful, ((released_once_iff rfl).2 hgone).mpr hcareful⟩

theorem not_always_of_releases {actions : List Action} {n : Nat}
    (h : (run step init actions).map (fun s => s.releases a) = some n) (hn : 1 < n) :
    ¬ Always step ReleasedOnce init actions := by
  intro halways
  obtain ⟨s, hrun, rfl⟩ := Option.map_eq_some_iff.mp h
  exact Nat.not_le.mpr hn ((halways actions s List.prefix_rfl hrun).once a)

/-- **Guards that release twice**: a read guard that is unlocked and destroyed, a read guard and its copy, a write
    guard and its copy, and a write guard that is unlocked again. -/
theorem released_twice :
    (run step init [.read ⟨7⟩, .unlock 0, .destroy 0]).map (fun s => s.releases 0) = some 2 ∧
      (run step init [.read ⟨7⟩, .copy 0, .destroy 0, .destroy 1]).map (fun s => s.releases 0) = some 2 ∧
      (run step init [.write ⟨7⟩, .copy 0, .destroy 0, .destroy 1]).map (fun s => s.releases 0) = some 2 ∧
      (run step init [.write ⟨7⟩, .unlock 0, .unlock 0, .destroy 0]).map (fun s => s.releases 0) = some 2 ∧
      ¬ ∀ actions, Always step ReleasedOnce init actions := by
  have hunlocked : (run step init [.read ⟨7⟩, .unlock 0, .destroy 0]).map (fun s => s.releases 0) = some 2 := by
    decide
  refine ⟨hunlocked, by decide, by decide, by decide, ?_⟩
  intro h
  exact not_always_of_releases hunlocked (by decide) (h _)

end Guards
end Threads
end Hiaux
