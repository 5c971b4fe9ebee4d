import Hiaux.Events.EventWatcherEpoll
import Hiaux.Events.EventWatcherKqueue
import Hiaux.Lib.Run

/-!
# `Events.Correctness.EnabledEvents` — two watchers, the same calls

The entry that `m_sockets_masks` has for a descriptor says which events the watcher is asked for. `kqueue`
gets filter by filter what is added to the entry, and its filters are the entry's after every call
(`Synced`). `epoll` replaces the whole interest set: `addSocket` passes it the entry, but `enableEvents`
passes the newly needed events only, so the events that were enabled before are no longer registered. The
two agree in exactly the runs in which `enableEvents` never finds an event enabled before
(`backends_agree_iff`).
-/

namespace Hiaux
namespace Events

open Lib

/-! ## The same calls -/

/-- A call to a watcher. -/
inductive Call where
  | addSocket (fd : Int) (mask : Mask)
  | enableEvents (fd : Int) (mask : Mask)
  | delSocket (fd : Int)
deriving DecidableEq, Repr

/-- A watcher of each kind, after the same calls. -/
structure Watchers where
  epoll : EventWatcherEpoll
  kqueue : EventWatcherKqueue

namespace Watchers

def init : Watchers := ⟨.new, .new⟩

/-- One call to both; none where one of them ends the process. -/
def step (s : Watchers) : Call → Option Watchers
  | .addSocket fd mask =>
      (s.epoll.addSocket fd mask).bind fun e => (s.kqueue.addSocket fd mask).map fun k => ⟨e, k⟩
  | .enableEvents fd mask =>
      (s.epoll.enableEvents fd mask).bind fun e => (s.kqueue.enableEvents fd mask).map fun k => ⟨e, k⟩
  | .delSocket fd => (s.epoll.delSocket fd).map fun e => ⟨e, s.kqueue.delSocket fd⟩

/-! ## What the kernel has enabled -/

/-- Adding the filters of a mask. -/
theorem kevent_add (enabled : Int → Interest) (fd : Int) (mask : Mask) :
    kevent enabled (EventWatcherKqueue.changes fd mask .add) =
      (Function.update enabled fd
        ⟨(enabled fd).read || has mask hiRead, (enabled fd).write || has mask hiWrite⟩, true) := by
  cases hread : has mask hiRead <;> cases hwrite : has mask hiWrite <;>
    simp [EventWatcherKqueue.changes, kevent, change, Interest.set, hread, hwrite]

/-- Removing the filters of a mask, when they are the enabled ones. -/
theorem kevent_delete {enabled : Int → Interest} {fd : Int} {mask : Mask}
    (henabled : enabled fd = .ofEntry (some mask)) :
    kevent enabled (EventWatcherKqueue.changes fd mask .delete) =
      (Function.update enabled fd ⟨false, false⟩, true) := by
  cases hread : has mask hiRead <;> cases hwrite : has mask hiWrite <;>
    simp [EventWatcherKqueue.changes, kevent, change, Interest.get, Interest.set, Interest.ofEntry, hread, hwrite,
      henabled]

/-- What `enableEvents` makes of an entry. -/
theorem ofEntry_enable (old mask : Mask) :
    Interest.ofEntry (some (old ||| ~~~old &&& mask)) =
      ⟨has old hiRead || has (~~~old &&& mask) hiRead, has old hiWrite || has (~~~old &&& mask) hiWrite⟩ := by
  simp only [Interest.ofEntry, Option.any_some, has_read, has_write, BitVec.getLsbD_or]

/-- What `addSocket` registers is what the mask asks for. -/
theorem interest_add (mask : Mask) :
    (⟨has (EventWatcherEpoll.addEvents epollEt mask) epollIn,
      has (EventWatcherEpoll.addEvents epollEt mask) epollOut⟩ : Interest) = .ofEntry (some mask) := by
  have hin : has epollEt epollIn = false := by decide
  have hout : has epollEt epollOut = false := by decide
  rw [EventWatcherEpoll.addEvents_in, EventWatcherEpoll.addEvents_out, hin, hout]
  simp [Interest.ofEntry]

/-- What `enableEvents` registers is what the new entry asks for, exactly if the old one asked for
    nothing. -/
theorem interest_enable_iff (old mask : Mask) :
    (⟨has (EventWatcherEpoll.addEvents 0#32 (~~~old &&& mask)) epollIn,
      has (EventWatcherEpoll.addEvents 0#32 (~~~old &&& mask)) epollOut⟩ : Interest) =
        .ofEntry (some (old ||| ~~~old &&& mask)) ↔ Interest.ofEntry (some old) = ⟨false, false⟩ := by
  have hin : has 0#32 epollIn = false := by decide
  have hout : has 0#32 epollOut = false := by decide
  rw [EventWatcherEpoll.addEvents_in, EventWatcherEpoll.addEvents_out, hin, hout, ofEntry_enable]
  have hread : has (~~~old &&& mask) hiRead = (!has old hiRead && has mask hiRead) := by
    simp only [has_read, BitVec.getLsbD_and, BitVec.getLsbD_not, Nat.reduceLT, decide_true, Bool.true_and]
  have hwrite : has (~~~old &&& mask) hiWrite = (!has old hiWrite && has mask hiWrite) := by
    simp only [has_write, BitVec.getLsbD_and, BitVec.getLsbD_not, Nat.reduceLT, decide_true, Bool.true_and]
  rw [hread, hwrite]
  simp only [Interest.ofEntry, Option.any_some, Interest.mk.injEq]
  cases has old hiRead <;> cases has old hiWrite <;> simp

/-! ## What a call does -/

/-- The two watchers have the same entries, `epoll` knows the descriptors that have one, and the filters of
    `kqueue` are what the entries ask for. -/
structure Synced (s : Watchers) : Prop where
  masks : s.kqueue.socketsMasks = s.epoll.socketsMasks
  known : ∀ fd, (s.epoll.registered fd).isSome = (s.epoll.socketsMasks fd).isSome
  enabled : ∀ fd, s.kqueue.enabled fd = .ofEntry (s.epoll.socketsMasks fd)

/-- The two watchers after the entry and the events of one descriptor are changed. -/
def change (s : Watchers) (fd : Int) (entry events : Option Mask) : Watchers :=
  ⟨⟨Function.update s.epoll.socketsMasks fd entry, Function.update s.epoll.registered fd events⟩,
    ⟨Function.update s.kqueue.socketsMasks fd entry, Function.update s.kqueue.enabled fd (.ofEntry entry)⟩⟩

variable {s t : Watchers}

theorem Synced.change (h : Synced s) {fd : Int} {entry events : Option Mask}
    (hknown : events.isSome = entry.isSome) : Synced (s.change fd entry events) := by
  refine ⟨?_, ?_, ?_⟩
  · show Function.update s.kqueue.socketsMasks fd entry = Function.update s.epoll.socketsMasks fd entry
    rw [h.masks]
  · intro fd'
    by_cases hfd : fd' = fd
    · subst hfd
      simp only [Watchers.change, Function.update_self, hknown]
    · simp only [Watchers.change, Function.update_of_ne hfd, h.known fd']
  · intro fd'
    by_cases hfd : fd' = fd
    · subst hfd
      simp only [Watchers.change, Function.update_self]
    · simp only [Watchers.change, Function.update_of_ne hfd, h.enabled fd']

/-- `addSocket` on a descriptor that has no entry; on one that has, it ends the process. -/
theorem step_addSocket (h : Synced s) (fd : Int) (mask : Mask) :
    s.step (.addSocket fd mask) =
      if s.epoll.socketsMasks fd = none then
        some (s.change fd (some mask) (some (EventWatcherEpoll.addEvents epollEt mask)))
      else none := by
  have hknown := h.known fd
  have henabled := h.enabled fd
  cases hentry : s.epoll.socketsMasks fd with
  | none =>
      rw [hentry] at hknown henabled
      have hreg : s.epoll.registered fd = none := by simpa using hknown
      have hoff : s.kqueue.enabled fd = ⟨false, false⟩ := henabled
      have hofEntry : Interest.ofEntry (some mask) = ⟨has mask hiRead, has mask hiWrite⟩ := rfl
      simp only [step, EventWatcherEpoll.addSocket, epollCtl, hreg, EventWatcherKqueue.addSocket, kevent_add,
        hoff, Bool.false_or, Option.map_some, Option.bind_some, if_true, Watchers.change, hofEntry]
  | some old =>
      rw [hentry] at hknown
      obtain ⟨events, hreg⟩ := Option.isSome_iff_exists.mp hknown
      simp [step, EventWatcherEpoll.addSocket, epollCtl, hreg]

/-- `enableEvents` on a descriptor that has an entry. -/
theorem step_enableEvents (h : Synced s) {fd : Int} {old : Mask} (hentry : s.epoll.socketsMasks fd = some old)
    (mask : Mask) : s.step (.enableEvents fd mask) =
      some (s.change fd (some (old ||| ~~~old &&& mask))
        (some (EventWatcherEpoll.addEvents 0#32 (~~~old &&& mask)))) := by
  have hknown := h.known fd
  have henabled := h.enabled fd
  rw [hentry] at hknown henabled
  obtain ⟨events, hreg⟩ := Option.isSome_iff_exists.mp hknown
  have hmasks : s.kqueue.socketsMasks fd = some old := by rw [h.masks, hentry]
  simp only [step, EventWatcherEpoll.enableEvents, hentry, epollCtl, hreg, EventWatcherKqueue.enableEvents,
    hmasks, kevent_add, henabled, Option.map_some, Option.bind_some, Watchers.change, ofEntry_enable]
  rfl

/-- `delSocket` on a descriptor that has an entry. -/
theorem step_delSocket (h : Synced s) {fd : Int} {old : Mask} (hentry : s.epoll.socketsMasks fd = some old) :
    s.step (.delSocket fd) = some (s.change fd none none) := by
  have hknown := h.known fd
  have henabled := h.enabled fd
  rw [hentry] at hknown henabled
  obtain ⟨events, hreg⟩ := Option.isSome_iff_exists.mp hknown
  have hmasks : s.kqueue.socketsMasks fd = some old := by rw [h.masks, hentry]
  simp only [step, EventWatcherEpoll.delSocket, hentry, epollCtl, hreg, EventWatcherKqueue.delSocket, hmasks,
    kevent_delete henabled, Option.map_some, Watchers.change]
  rfl

/-- `enableEvents` and `delSocket` leave a descriptor alone that has no entry. -/
theorem step_unknown (h : Synced s) {fd : Int} (hentry : s.epoll.socketsMasks fd = none) (mask : Mask) :
    s.step (.enableEvents fd mask) = some s ∧ s.step (.delSocket fd) = some s := by
  have hmasks : s.kqueue.socketsMasks fd = none := by rw [h.masks, hentry]
  constructor
  · simp only [step, EventWatcherEpoll.enableEvents, hentry, EventWatcherKqueue.enableEvents, hmasks,
      Option.map_some, Option.bind_some]
  · simp only [step, EventWatcherEpoll.delSocket, hentry, EventWatcherKqueue.delSocket, hmasks, Option.map_some]

/-- **`kqueue` follows the entries**, whatever the calls. -/
theorem Synced.step (h : Synced s) {call : Call} (hstep : s.step call = some t) : Synced t := by
  cases call with
  | addSocket fd mask =>
      rw [step_addSocket h] at hstep
      split at hstep
      · exact Option.some.inj hstep ▸ h.change rfl
      · exact absurd hstep (by simp)
  | enableEvents fd mask =>
      cases hentry : s.epoll.socketsMasks fd with
      | none => exact Option.some.inj ((step_unknown h hentry mask).1.symm.trans hstep) ▸ h
      | some old => exact Option.some.inj ((step_enableEvents h hentry mask).symm.trans hstep) ▸ h.change rfl
  | delSocket fd =>
      cases hentry : s.epoll.socketsMasks fd with
      | none => exact Option.some.inj ((step_unknown h hentry 0#32).2.symm.trans hstep) ▸ h
      | some old => exact Option.some.inj ((step_delSocket h hentry).symm.trans hstep) ▸ h.change rfl

theorem synced_init : Synced init := ⟨rfl, fun _ => rfl, fun _ => rfl⟩

/-! ## When the two agree -/

/-- The events that `epoll` has registered for a descriptor are those its entry asks for, and those that
    `kqueue` has enabled. -/
def Agree (s : Watchers) : Prop :=
  ∀ fd, s.epoll.interest fd = .ofEntry (s.epoll.socketsMasks fd) ∧ s.epoll.interest fd = s.kqueue.enabled fd

/-- `enableEvents` finds neither read nor write events in the entry of its descriptor. -/
def NothingEnabled (s : Watchers) : Call → Prop
  | .enableEvents fd _ => Interest.ofEntry (s.epoll.socketsMasks fd) = ⟨false, false⟩
  | _ => True

theorem Synced.agree_iff (h : Synced s) :
    Agree s ↔ ∀ fd, s.epoll.interest fd = .ofEntry (s.epoll.socketsMasks fd) := by
  constructor
  · exact fun hagree fd => (hagree fd).1
  · exact fun hagree fd => ⟨hagree fd, (hagree fd).trans (h.enabled fd).symm⟩

/-- A change of one descriptor keeps the watchers in agreement exactly if they agree on it. -/
theorem Synced.agree_change_iff (h : Synced s) (hagree : Agree s) {fd : Int} {entry events : Option Mask}
    (hknown : events.isSome = entry.isSome) :
    Agree (s.change fd entry events) ↔
      (⟨events.any (has · epollIn), events.any (has · epollOut)⟩ : Interest) = .ofEntry entry := by
  rw [(h.change hknown).agree_iff]
  constructor
  · intro hnew
    simpa [Watchers.change, EventWatcherEpoll.interest] using hnew fd
  · intro hself fd'
    by_cases hfd : fd' = fd
    · subst hfd
      simpa [Watchers.change, EventWatcherEpoll.interest] using hself
    · simpa [Watchers.change, EventWatcherEpoll.interest, hfd] using (hagree fd').1

/-- **What one call does to the agreement.** -/
theorem Synced.agree_step_iff (hsynced : Synced s) (hagree : Agree s) {call : Call} :
    (∀ t, s.step call = some t → Agree t) ↔ NothingEnabled s call := by
  cases call with
  | addSocket fd mask =>
      refine iff_of_true (fun t hstep => ?_) True.intro
      rw [step_addSocket hsynced] at hstep
      split at hstep
      · obtain rfl := Option.some.inj hstep
        exact (hsynced.agree_change_iff hagree (by rfl)).mpr (interest_add mask)
      · exact absurd hstep (by simp)
  | enableEvents fd mask =>
      simp only [NothingEnabled]
      cases hentry : s.epoll.socketsMasks fd with
      | none =>
          refine iff_of_true (fun t hstep => ?_) rfl
          obtain rfl := Option.some.inj ((step_unknown hsynced hentry mask).1.symm.trans hstep)
          exact hagree
      | some old =>
          rw [step_enableEvents hsynced hentry mask]
          constructor
          · intro hall
            have hnew := hall _ rfl
            exact (interest_enable_iff old mask).mp ((hsynced.agree_change_iff hagree (by rfl)).mp hnew)
          · intro hnone t ht
            obtain rfl := Option.some.inj ht
            exact (hsynced.agree_change_iff hagree (by rfl)).mpr ((interest_enable_iff old mask).mpr hnone)
  | delSocket fd =>
      refine iff_of_true (fun t hstep => ?_) True.intro
      cases hentry : s.epoll.socketsMasks fd with
      | none =>
          obtain rfl := Option.some.inj ((step_unknown hsynced hentry 0#32).2.symm.trans hstep)
          exact hagree
      | some old =>
          obtain rfl := Option.some.inj ((step_delSocket hsynced hentry).symm.trans hstep)
          exact (hsynced.agree_change_iff hagree (by rfl)).mpr rfl

/-- **The two back ends enable the same events, exactly in the runs in which `enableEvents` never finds an
    event enabled before.** Whatever the calls, in every state they go through: the events registered with
    `epoll` are those of the entries, which are those enabled with `kqueue`, if and only if every call of
    `enableEvents` meets a descriptor without read and write events. -/
theorem backends_agree_iff (calls : List Call) :
    Always step Agree init calls ↔ Along step NothingEnabled init calls := by
  exact always_iff_along_of_invariant Synced (fun h hstep => h.step hstep)
    (fun h hagree => h.agree_step_iff hagree) synced_init (fun _ => ⟨rfl, rfl⟩)

/-- A descriptor is added for reading, and then writing is enabled. -/
def enableWrite : List Call := [.addSocket 5 hiRead, .enableEvents 5 hiWrite]

/-- Reading is no longer registered with `epoll`, though the entry asks for it and `kqueue` has it. -/
theorem enableWrite_disagrees : ∃ s, Lib.run step init enableWrite = some s ∧
    s.epoll.interest 5 = ⟨false, true⟩ ∧ Interest.ofEntry (s.epoll.socketsMasks 5) = ⟨true, true⟩ ∧
      s.kqueue.enabled 5 = ⟨true, true⟩ :=
  ⟨(Lib.run step init enableWrite).get (by decide), (Option.some_get _).symm, by decide, by decide, by decide⟩

end Watchers
end Events
end Hiaux
