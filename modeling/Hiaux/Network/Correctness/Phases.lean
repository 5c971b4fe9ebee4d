import Hiaux.Lib.Parties
import Hiaux.Network.HttpOutReqDisp

/-!
# `Network.Correctness.Phases` — each requester by itself

What the dispatcher is for, seen from one requester: it is added, gets its number, makes its call, the call is
reported, the requester is told and taken out. `Phase` says how far it has come and `Phase.Next` how it goes
on; no other requester occurs in either. The dispatcher refines many requesters that do this side by side
(`Refines`): its tasks, transfers and table are what the phases say, put together, and each step moves one of
the phases on.
-/

namespace Hiaux
namespace Network

open Lib

/-- How far a requester has come, with its number, and the result of its call once that is known. -/
inductive Phase where
  | added
  | called (id : Int)
  | transferring (id : Int) (curl : Nat)
  | reported (id : Int) (ok : Bool) (resp : Bytes)
  | answered (id : Int) (ok : Bool) (resp : Bytes)
  | found (id : Int) (ok : Bool) (resp : Bytes)
  | finished (id : Int) (ok : Bool) (resp : Bytes)
  | removed (id : Int) (ok : Bool) (resp : Bytes)
deriving DecidableEq, Repr

/-! ## What belongs to a requester -/

namespace Requester

/-- What its call is made with. -/
def info (r : Nat) (id : Int) : OutRequestInfo := ⟨id, 0, r⟩

/-- The task that makes its call. -/
def callTask (o : Requester) (r : Nat) (id : Int) : Task :=
  match o.postdata with
  | none => .onCall id 0 o.callUrl r
  | some postdata => .onCallPost id 0 o.callUrl postdata r

/-- The transfer of its call. -/
def transfer (o : Requester) (r : Nat) (id : Int) : Transfer :=
  ⟨o.callUrl, o.postdata, .new (info r id) (o.postdata.getD [])⟩

/-- Its job, with a result. -/
def job (o : Requester) (r : Nat) (id : Int) (ok : Bool) (resp : Bytes) : JobInfo :=
  { (o.transfer r id).job with success := ok, resp := resp }

/-- Its call as it is reported. -/
def report (o : Requester) (r : Nat) (id : Int) (ok : Bool) (resp : Bytes) : Transfer :=
  { o.transfer r id with job := o.job r id ok resp }

@[simp] theorem caller_report (o : Requester) (r : Nat) (id : Int) (ok : Bool) (resp : Bytes) :
    (o.report r id ok resp).job.userdata.caller = r := rfl

end Requester

/-- The callback that answers a report. -/
def Transfer.result (t : Transfer) : CallResult := if !t.job.success then .fail else .ok t.job.resp

namespace Phase

/-- The tasks of the dispatcher's launcher. -/
def tasks (r : Nat) (o : Requester) : Phase → Multiset Task
  | added => {.addRequester r}
  | called id => {o.callTask r id}
  | answered id ok resp => {.onCallDone (o.job r id ok resp)}
  | finished id _ _ => {.onRequesterFinished id}
  | _ => 0

/-- The transfer, and its handle. -/
def transfer (r : Nat) (o : Requester) : Phase → Option (Nat × Transfer)
  | transferring id curl => some (curl, o.transfer r id)
  | _ => none

/-- The tasks of the client's launcher. -/
def handlers (r : Nat) (o : Requester) : Phase → Multiset JobInfo
  | reported id ok resp => {o.job r id ok resp}
  | _ => 0

/-- The runs of `onCallDoneTask` behind the lock. -/
def completing (r : Nat) (o : Requester) : Phase → Multiset (Option Nat × JobInfo)
  | found id ok resp => {(some r, o.job r id ok resp)}
  | _ => 0

/-- The number of the requester. -/
def id : Phase → Option Int
  | added => none
  | called id => some id
  | transferring id _ => some id
  | reported id _ _ => some id
  | answered id _ _ => some id
  | found id _ _ => some id
  | finished id _ _ => some id
  | removed id _ _ => some id

/-- The number it is registered under. -/
def registered : Phase → Option Int
  | removed _ _ _ => none
  | p => p.id

/-- How many numbers it has been given. -/
def started : Phase → Int
  | added => 0
  | _ => 1

/-- What has been reported of its call. -/
def reports (r : Nat) (o : Requester) : Phase → List Transfer
  | reported id ok resp => [o.report r id ok resp]
  | answered id ok resp => [o.report r id ok resp]
  | found id ok resp => [o.report r id ok resp]
  | finished id ok resp => [o.report r id ok resp]
  | removed id ok resp => [o.report r id ok resp]
  | _ => []

/-- The callbacks it has made. -/
def callbacks (r : Nat) (o : Requester) : Phase → List CallResult
  | finished id ok resp => [(o.report r id ok resp).result]
  | removed id ok resp => [(o.report r id ok resp).result]
  | _ => []

/-- How a requester goes on. -/
inductive Next : Phase → Phase → Prop where
  | start (id : Int) : Next added (called id)
  | call (id : Int) (curl : Nat) : Next (called id) (transferring id curl)
  | report (id : Int) (curl : Nat) (ok : Bool) (resp : Bytes) : Next (transferring id curl) (reported id ok resp)
  | handle (id : Int) (ok : Bool) (resp : Bytes) : Next (reported id ok resp) (answered id ok resp)
  | find (id : Int) (ok : Bool) (resp : Bytes) : Next (answered id ok resp) (found id ok resp)
  | finish (id : Int) (ok : Bool) (resp : Bytes) : Next (found id ok resp) (finished id ok resp)
  | remove (id : Int) (ok : Bool) (resp : Bytes) : Next (finished id ok resp) (removed id ok resp)

/-- How many times a requester has still to go on. -/
def left : Phase → Nat
  | added => 7
  | called _ => 6
  | transferring _ _ => 5
  | reported _ _ _ => 4
  | answered _ _ _ => 3
  | found _ _ _ => 2
  | finished _ _ _ => 1
  | removed _ _ _ => 0

theorem left_next {p q : Phase} (h : p.Next q) : q.left + 1 = p.left := by
  cases h <;> rfl

theorem registered_some {p : Phase} {k : Int} (h : p.registered = some k) : p.id = some k := by
  cases p <;> first | exact h | exact absurd h (by simp [registered])

/-- A requester is told at most once, and what has been reported of its call. -/
theorem callbacks_reported (r : Nat) (o : Requester) (p : Phase) :
    p.callbacks r o <+: (p.reports r o).map Transfer.result ∧ (p.reports r o).length ≤ 1 := by
  cases p <;> simp [callbacks, reports]

/-- What has been reported of a requester's call is its own call. -/
theorem own_report {r : Nat} {p : Phase} {o : Requester} {t : Transfer} (ht : t ∈ p.reports r o) :
    t.url = o.callUrl ∧ t.postFields = o.postdata := by
  cases p with
  | added => exact absurd ht List.not_mem_nil
  | called id => exact absurd ht List.not_mem_nil
  | transferring id curl => exact absurd ht List.not_mem_nil
  | _ =>
      obtain rfl := List.mem_singleton.mp ht
      exact ⟨rfl, rfl⟩

end Phase

/-! ## Refinement -/

namespace HttpOutRequestDisp

/-- **The dispatcher is many requesters side by side.** Requesters still to be made count as added. -/
structure Refines (s : HttpOutRequestDisp) (φ : Nat → Phase) : Prop where
  tasks : (s.tasks : Multiset Task) = ∑ r ∈ Finset.range s.allocated, (φ r).tasks r (s.objects r)
  handlers : (s.client.tasks : Multiset JobInfo) =
    ∑ r ∈ Finset.range s.allocated, (φ r).handlers r (s.objects r)
  completing : (s.completing : Multiset (Option Nat × JobInfo)) =
    ∑ r ∈ Finset.range s.allocated, (φ r).completing r (s.objects r)
  transfers : ∀ (curl : Nat) (t : Transfer),
    s.client.eCurls[curl]? = some t ↔ ∃ r, (φ r).transfer r (s.objects r) = some (curl, t)
  requesters : ∀ (k : Int) (r : Nat), s.requesters[k]? = some r ↔ (φ r).registered = some k
  ids : ∀ (r : Nat) (k : Int), (φ r).id = some k → (s.objects r).id = k ∧ 0 < k ∧ k ≤ s.reqId
  distinct : ∀ (q r : Nat) (k : Int), (φ q).id = some k → (φ r).id = some k → q = r
  count : s.reqId = ∑ r ∈ Finset.range s.allocated, (φ r).started
  reports : ∀ r, s.reportsOf r = (φ r).reports r (s.objects r)
  callbacks : ∀ r, s.callbacksOf r = (φ r).callbacks r (s.objects r)
  unmade : ∀ r, s.allocated ≤ r → φ r = .added
  present : s.missing = false
  bound : s.allocated < 2 ^ 31

variable {s s' : HttpOutRequestDisp} {φ : Nat → Phase} {r : Nat}

theorem refines_new : Refines new (fun _ => .added) where
  tasks := rfl
  handlers := rfl
  completing := rfl
  transfers := by simp [new, Phase.transfer]
  requesters := by simp [new, Phase.registered, Phase.id]
  ids := fun _ _ h => absurd h (by simp [Phase.id])
  distinct := fun _ _ _ h => absurd h (by simp [Phase.id])
  count := rfl
  reports := fun _ => rfl
  callbacks := fun _ => rfl
  unmade := fun _ _ => rfl
  present := rfl
  bound := by decide

/-- **One requester goes on.** -/
theorem Refines.move (h : Refines s φ) (hr : r < s.allocated) {q : Phase} (hq : φ r = q) (p : Phase)
    {o : Requester} (halloc : s'.allocated = s.allocated)
    (hobjects : s'.objects = Function.update s.objects r o)
    (htasks : (s'.tasks : Multiset Task) + q.tasks r (s.objects r) = s.tasks + p.tasks r o)
    (hhandlers : (s'.client.tasks : Multiset JobInfo) + q.handlers r (s.objects r) =
      s.client.tasks + p.handlers r o)
    (hcompleting : (s'.completing : Multiset (Option Nat × JobInfo)) + q.completing r (s.objects r) =
      s.completing + p.completing r o)
    (htransfers : ∀ (curl : Nat) (t : Transfer), s'.client.eCurls[curl]? = some t ↔
      p.transfer r o = some (curl, t) ∨ ∃ j ≠ r, (φ j).transfer j (s.objects j) = some (curl, t))
    (hrequesters : ∀ (k : Int) (j : Nat), s'.requesters[k]? = some j ↔
      (j = r ∧ p.registered = some k) ∨ (j ≠ r ∧ s.requesters[k]? = some j))
    (hid : ∀ k, p.id = some k → o.id = k ∧ 0 < k ∧ k ≤ s'.reqId) (hreqId : s.reqId ≤ s'.reqId)
    (hdistinct : ∀ k, p.id = some k → ∀ j, j ≠ r → (φ j).id ≠ some k)
    (hcount : s'.reqId + q.started = s.reqId + p.started)
    (hreports : ∀ j, s'.reportsOf j = if j = r then p.reports r o else s.reportsOf j)
    (hcallbacks : ∀ j, s'.callbacksOf j = if j = r then p.callbacks r o else s.callbacksOf j)
    (hpresent : s'.missing = false) : Refines s' (Function.update φ r p) := by
  have hself : Function.update φ r p r = p := Function.update_self _ _ _
  have hnew : s'.objects r = o := by rw [hobjects, Function.update_self]
  have hrest : ∀ j, j ≠ r → s'.objects j = s.objects j := fun j hj => by
    rw [hobjects, Function.update_of_ne hj]
  have hother : ∀ j, j ≠ r → Function.update φ r p j = φ j := fun j hj => Function.update_of_ne hj _ _
  subst hq
  -- what the others contribute to a shared place is as before
  have hsum : ∀ {τ : Type} (place : Nat → Requester → Phase → Multiset τ) {t t' : Multiset τ},
      t = ∑ j ∈ Finset.range s.allocated, place j (s.objects j) (φ j) →
      t' + place r (s.objects r) (φ r) = t + place r o p →
        t' = ∑ j ∈ Finset.range s'.allocated, place j (s'.objects j) (Function.update φ r p j) := by
    intro τ place t t' ht hmove
    rw [halloc]
    refine sum_move ht hr (fun j hj => ?_) ?_
    · rw [hother j hj, hrest j hj]
    · rw [hself, hnew]
      exact hmove
  have hrecord : ∀ {τ : Type} (record : Nat → Requester → Phase → List τ) {l l' : Nat → List τ},
      (∀ j, l j = record j (s.objects j) (φ j)) →
      (∀ j, l' j = if j = r then record r o p else l j) →
        ∀ j, l' j = record j (s'.objects j) (Function.update φ r p j) := by
    intro τ record l l' hl hl' j
    rw [hl']
    by_cases hj : j = r
    · rw [if_pos hj, hj, hself, hnew]
    · rw [if_neg hj, hother j hj, hrest j hj, hl]
  refine ⟨hsum Phase.tasks h.tasks htasks, hsum Phase.handlers h.handlers hhandlers,
    hsum Phase.completing h.completing hcompleting, ?_, ?_, ?_, ?_, ?_,
    hrecord Phase.reports h.reports hreports, hrecord Phase.callbacks h.callbacks hcallbacks, ?_, hpresent, halloc ▸ h.bound⟩
  · intro curl t
    rw [htransfers]
    constructor
    · rintro (hp | ⟨j, hj, ht⟩)
      · exact ⟨r, by rw [hself, hnew]; exact hp⟩
      · exact ⟨j, by rw [hother j hj, hrest j hj]; exact ht⟩
    · rintro ⟨j, ht⟩
      by_cases hj : j = r
      · subst hj
        rw [hself, hnew] at ht
        exact Or.inl ht
      · rw [hother j hj, hrest j hj] at ht
        exact Or.inr ⟨j, hj, ht⟩
  · intro k j
    rw [hrequesters]
    by_cases hj : j = r
    · subst hj
      simp
    · simp [hj, h.requesters]
  · intro j k hk
    by_cases hj : j = r
    · subst hj
      rw [hself] at hk
      rw [hnew]
      exact hid k hk
    · rw [hother j hj] at hk
      rw [hrest j hj]
      obtain ⟨heq, hpos, hle⟩ := h.ids j k hk
      exact ⟨heq, hpos, Int.le_trans hle hreqId⟩
  · intro i j k hi hj
    by_cases hir : i = r
    · by_cases hjr : j = r
      · rw [hir, hjr]
      · rw [hir, hself] at hi
        rw [hother j hjr] at hj
        exact absurd hj (hdistinct k hi j hjr)
    · rw [hother i hir] at hi
      by_cases hjr : j = r
      · rw [hjr, hself] at hj
        exact absurd hi (hdistinct k hj i hir)
      · rw [hother j hjr] at hj
        exact h.distinct i j k hi hj
  · rw [halloc]
    refine sum_move h.count hr (fun j hj => ?_) ?_
    · rw [hother j hj]
    · rw [hself]
      exact hcount
  · intro j hj
    rw [halloc] at hj
    rw [hother j (by omega)]
    exact h.unmade j hj

/-- The transfers of the others, with one requester's in a phase that has none. -/
theorem Refines.transfers_of_none (h : Refines s φ) {q : Phase} (hq : φ r = q)
    (hnone : q.transfer r (s.objects r) = none) (curl : Nat) (t : Transfer) :
    s.client.eCurls[curl]? = some t ↔ ∃ j ≠ r, (φ j).transfer j (s.objects j) = some (curl, t) := by
  rw [h.transfers]
  constructor
  · rintro ⟨j, ht⟩
    refine ⟨j, ?_, ht⟩
    rintro rfl
    rw [hq, hnone] at ht
    exact absurd ht (by simp)
  · rintro ⟨j, -, ht⟩
    exact ⟨j, ht⟩

/-! What stays the same when one requester goes on. -/

section Kept

variable {p q : Phase} {o : Requester}

theorem Refines.requesters_kept (h : Refines s φ) (hq : φ r = q) (hsame : p.registered = q.registered) (k : Int)
    (j : Nat) : s.requesters[k]? = some j ↔
      (j = r ∧ p.registered = some k) ∨ (j ≠ r ∧ s.requesters[k]? = some j) := by
  rw [hsame, ← hq, h.requesters]
  by_cases hj : j = r
  · simp [hj]
  · simp [hj]

theorem Refines.reports_kept (h : Refines s φ) (hq : φ r = q)
    (hsame : p.reports r o = q.reports r (s.objects r)) (j : Nat) :
    s.reportsOf j = if j = r then p.reports r o else s.reportsOf j := by
  by_cases hj : j = r
  · rw [if_pos hj, hsame, hj, h.reports, hq]
  · rw [if_neg hj]

theorem Refines.callbacks_kept (h : Refines s φ) (hq : φ r = q)
    (hsame : p.callbacks r o = q.callbacks r (s.objects r)) (j : Nat) :
    s.callbacksOf j = if j = r then p.callbacks r o else s.callbacksOf j := by
  by_cases hj : j = r
  · rw [if_pos hj, hsame, hj, h.callbacks, hq]
  · rw [if_neg hj]

end Kept

/-- **One requester goes on with its number.** -/
theorem Refines.goOn (h : Refines s φ) (hr : r < s.allocated) {q : Phase} (hq : φ r = q) (p : Phase)
    {o : Requester} (hids : p.id = q.id) (hstarted : p.started = q.started)
    (halloc : s'.allocated = s.allocated) (hobjects : s'.objects = Function.update s.objects r o)
    (hkept : o.id = (s.objects r).id) (hreqId : s'.reqId = s.reqId)
    (htasks : (s'.tasks : Multiset Task) + q.tasks r (s.objects r) = s.tasks + p.tasks r o)
    (hhandlers : (s'.client.tasks : Multiset JobInfo) + q.handlers r (s.objects r) =
      s.client.tasks + p.handlers r o)
    (hcompleting : (s'.completing : Multiset (Option Nat × JobInfo)) + q.completing r (s.objects r) =
      s.completing + p.completing r o)
    (htransfers : ∀ (curl : Nat) (t : Transfer), s'.client.eCurls[curl]? = some t ↔
      p.transfer r o = some (curl, t) ∨ ∃ j ≠ r, (φ j).transfer j (s.objects j) = some (curl, t))
    (hrequesters : ∀ (k : Int) (j : Nat), s'.requesters[k]? = some j ↔
      (j = r ∧ p.registered = some k) ∨ (j ≠ r ∧ s.requesters[k]? = some j))
    (hreports : ∀ j, s'.reportsOf j = if j = r then p.reports r o else s.reportsOf j)
    (hcallbacks : ∀ j, s'.callbacksOf j = if j = r then p.callbacks r o else s.callbacksOf j)
    (hpresent : s'.missing = false) : Refines s' (Function.update φ r p) := by
  subst hq
  refine h.move hr rfl p halloc hobjects htasks hhandlers hcompleting htransfers hrequesters ?_ ?_ ?_ ?_
    hreports hcallbacks hpresent
  · intro k hk
    rw [hids] at hk
    rw [hkept, hreqId]
    exact h.ids r k hk
  · rw [hreqId]
  · intro k hk j hj hk'
    rw [hids] at hk
    exact hj (h.distinct j r k hk' hk)
  · rw [hreqId, hstarted]

end HttpOutRequestDisp

end Network
end Hiaux
