import Hiaux.Lib.Lookup
import Hiaux.Network.Correctness.Phases
import Mathlib.Algebra.Order.BigOperators.Group.Finset

/-!
# `Network.Correctness.Dispatcher` — every answer reaches its requester once

Each kind of step is shown to move the one requester it is about to its next phase, and to leave the others
where they are (`Refines.step_cases`). Numbers stay distinct because a new one exceeds all that were given,
which needs that they have not run out. A requester is taken out by the last task of its own, so every lookup
before that finds it.
-/

namespace Hiaux
namespace Network
namespace HttpOutRequestDisp

open Lib

variable {s s' : HttpOutRequestDisp} {φ : Nat → Phase} {r : Nat}

/-! ## A requester is added -/

theorem Refines.addRequester (h : Refines s φ) (hbound : s.allocated + 1 < 2 ^ 31) (callUrl : Bytes)
    (postdata : Option Bytes) : Refines (s.addRequester callUrl postdata) φ := by
  have hadded : φ s.allocated = .added := h.unmade _ (Nat.le_refl _)
  have hobjects : ∀ j, j ≠ s.allocated → (s.addRequester callUrl postdata).objects j = s.objects j :=
    fun j hj => Function.update_of_ne hj _ _
  -- in its phase nothing depends on the requester itself
  have hrange : ∀ j ∈ Finset.range s.allocated, (s.addRequester callUrl postdata).objects j = s.objects j :=
    fun j hj => hobjects j (Nat.ne_of_lt (Finset.mem_range.mp hj))
  constructor
  · show ((s.tasks ++ [Task.addRequester s.allocated] : List Task) : Multiset Task) =
      ∑ j ∈ Finset.range (s.allocated + 1), _
    rw [Finset.sum_range_succ, hadded, ← Multiset.coe_add, h.tasks]
    refine congrArg₂ _ (Finset.sum_congr rfl fun j hj => ?_) rfl
    rw [hrange j hj]
  · show (s.client.tasks : Multiset JobInfo) = ∑ j ∈ Finset.range (s.allocated + 1), _
    rw [Finset.sum_range_succ, hadded, h.handlers]
    refine Eq.trans (Finset.sum_congr rfl fun j hj => ?_) (add_zero _).symm
    rw [hrange j hj]
  · show (s.completing : Multiset (Option Nat × JobInfo)) = ∑ j ∈ Finset.range (s.allocated + 1), _
    rw [Finset.sum_range_succ, hadded, h.completing]
    refine Eq.trans (Finset.sum_congr rfl fun j hj => ?_) (add_zero _).symm
    rw [hrange j hj]
  · intro curl t
    refine (h.transfers curl t).trans (exists_congr fun j => ?_)
    by_cases hj : j = s.allocated
    · rw [hj, hadded]
      rfl
    · rw [hobjects j hj]
  · exact h.requesters
  · intro j k hk
    by_cases hj : j = s.allocated
    · rw [hj, hadded] at hk
      exact absurd hk (by simp [Phase.id])
    · rw [hobjects j hj]
      exact h.ids j k hk
  · exact h.distinct
  · show s.reqId = ∑ j ∈ Finset.range (s.allocated + 1), _
    rw [Finset.sum_range_succ, hadded, h.count]
    exact (add_zero _).symm
  · intro j
    refine (h.reports j).trans ?_
    by_cases hj : j = s.allocated
    · rw [hj, hadded]
      rfl
    · rw [hobjects j hj]
  · intro j
    refine (h.callbacks j).trans ?_
    by_cases hj : j = s.allocated
    · rw [hj, hadded]
      rfl
    · rw [hobjects j hj]
  · exact fun j hj => h.unmade j (Nat.le_of_succ_le hj)
  · exact h.present
  · exact hbound

/-! ## Tasks -/

theorem increment_eq {n : Int} (hn : 0 ≤ n) (hbound : n + 1 < 2 ^ 31) : increment n = n + 1 := by
  unfold increment
  rw [Int.bmod_eq_of_le] <;> omega

/-- Fewer requesters have a number than there are, as long as one has none. -/
theorem Refines.reqId_lt (h : Refines s φ) (hr : r < s.allocated) (hadded : φ r = .added) :
    0 ≤ s.reqId ∧ s.reqId < s.allocated := by
  have hone : ∀ j, 0 ≤ (φ j).started ∧ (φ j).started ≤ 1 := fun j => by cases φ j <;> simp [Phase.started]
  rw [h.count]
  refine ⟨Finset.sum_nonneg fun j _ => (hone j).1, ?_⟩
  calc ∑ j ∈ Finset.range s.allocated, (φ j).started
      < ∑ _j ∈ Finset.range s.allocated, (1 : Int) := by
        refine Finset.sum_lt_sum (fun j _ => (hone j).2) ⟨r, Finset.mem_range.mpr hr, ?_⟩
        rw [hadded]
        decide
    _ = s.allocated := by simp

/-- What `addRequesterTask` does. -/
theorem addRequesterTask_eq (r : Nat) (s : HttpOutRequestDisp) : s.addRequesterTask r =
    { s with
      reqId := increment s.reqId
      objects := Function.update s.objects r { s.objects r with id := increment s.reqId }
      requesters := s.requesters.insertIfNew (increment s.reqId) r
      tasks := s.tasks ++ [(s.objects r).callTask r (increment s.reqId)] } := by
  unfold HttpOutRequestDisp.addRequesterTask start modify Requester.callTask
  simp only [Function.update_self]
  cases (s.objects r).postdata with
  | none => simp only [call, addTask, Function.update_self]
  | some postdata => simp only [callPost, addTask, Function.update_self]

/-- `addRequesterTask`: the requester gets a number nobody has, and its call is a task. -/
theorem Refines.addRequesterTask (h : Refines s φ) {k : Nat} (hr : r < s.allocated) (hadded : φ r = .added)
    (ht : s.tasks[k]? = some (.addRequester r)) :
    Refines ({ s with tasks := s.tasks.eraseIdx k }.addRequesterTask r)
      (Function.update φ r (.called (s.reqId + 1))) := by
  obtain ⟨hzero, hlt⟩ := h.reqId_lt hr hadded
  have hbound := h.bound
  have hinc : increment s.reqId = s.reqId + 1 := increment_eq hzero (by omega)
  have hfresh : ∀ j, (φ j).id ≠ some (s.reqId + 1) := fun j hj => by
    have hle := (h.ids j _ hj).2.2
    omega
  have hnone : s.requesters[s.reqId + 1]? = none := by
    refine Option.eq_none_iff_forall_ne_some.mpr fun j hj => ?_
    exact hfresh j (Phase.registered_some ((h.requesters _ j).mp hj))
  rw [addRequesterTask_eq]
  simp only [hinc]
  refine h.move hr hadded (.called (s.reqId + 1)) rfl rfl ?_ rfl rfl ?_ ?_ ?_
    (Int.le_add_of_nonneg_right (by decide)) ?_ (add_zero _) (h.reports_kept hadded rfl)
    (h.callbacks_kept hadded rfl) h.present
  · show ((s.tasks.eraseIdx k ++ [_] : List Task) : Multiset Task) + _ = _
    rw [← coe_eraseIdx ht, ← Multiset.coe_add]
    exact add_right_comm _ _ _
  · intro curl t
    refine (h.transfers_of_none hadded rfl curl t).trans ?_
    simp [Phase.transfer]
  · intro k' j
    refine (getElem?_insertIfNew_iff hnone).trans ?_
    have hnot : s.requesters[k']? ≠ some r := by
      rw [Ne, h.requesters, hadded]
      simp [Phase.registered, Phase.id]
    by_cases hj : j = r
    · subst hj
      simp [hnot, Phase.registered, Phase.id, eq_comm]
    · simp [hj]
  · intro k' hk'
    obtain rfl : s.reqId + 1 = k' := Option.some.inj hk'
    exact ⟨rfl, by omega, Int.le_refl _⟩
  · intro k' hk' j _ hj
    obtain rfl : s.reqId + 1 = k' := Option.some.inj hk'
    exact hfresh j hj

/-- What the task that makes a call does. -/
theorem runTask_callTask (curl : Nat) (o : Requester) (r : Nat) (id : Int) (s : HttpOutRequestDisp) :
    s.runTask curl (o.callTask r id) =
      { s with client := { s.client with eCurls := s.client.eCurls.insertIfNew curl (o.transfer r id) } } := by
  unfold Requester.callTask Requester.transfer
  cases o.postdata with
  | none => rfl
  | some postdata => rfl

/-- `onCallTask`, `onCallPostTask`: the call is made under a handle that is not in use. -/
theorem Refines.callTask (h : Refines s φ) {k curl : Nat} {id : Int} (hr : r < s.allocated)
    (hcalled : φ r = .called id) (ht : s.tasks[k]? = some ((s.objects r).callTask r id))
    (hcurl : curl ∉ s.client.eCurls) :
    Refines ({ s with tasks := s.tasks.eraseIdx k }.runTask curl ((s.objects r).callTask r id))
      (Function.update φ r (.transferring id curl)) := by
  have hnone : s.client.eCurls[curl]? = none := by
    rw [Std.ExtTreeMap.getElem?_eq_none hcurl]
  rw [runTask_callTask]
  refine h.goOn hr hcalled (.transferring id curl) rfl rfl rfl (Function.update_eq_self _ _).symm rfl rfl ?_ rfl
    rfl
    ?_ (h.requesters_kept hcalled rfl) (h.reports_kept hcalled rfl) (h.callbacks_kept hcalled rfl) h.present
  · show ((s.tasks.eraseIdx k : List Task) : Multiset Task) + {_} = _
    rw [coe_eraseIdx ht]
    exact (add_zero _).symm
  · intro curl' t
    refine (getElem?_insertIfNew_iff hnone).trans ?_
    rw [h.transfers_of_none hcalled rfl]
    refine or_congr_left ?_
    simp [Phase.transfer, eq_comm]

/-- `onCallDoneTask`: the requester is found. -/
theorem Refines.onCallDoneTask (h : Refines s φ) {k : Nat} {id : Int} {ok : Bool} {resp : Bytes}
    (hr : r < s.allocated) (hanswered : φ r = .answered id ok resp)
    (ht : s.tasks[k]? = some (.onCallDone ((s.objects r).job r id ok resp))) :
    Refines ({ s with tasks := s.tasks.eraseIdx k }.onCallDoneTask ((s.objects r).job r id ok resp))
      (Function.update φ r (.found id ok resp)) := by
  have hfound : s.requesters[id]? = some r := by
    rw [h.requesters, hanswered]
    rfl
  have heq : { s with tasks := s.tasks.eraseIdx k }.onCallDoneTask ((s.objects r).job r id ok resp) =
      { s with
        tasks := s.tasks.eraseIdx k
        completing := s.completing ++ [(some r, (s.objects r).job r id ok resp)] } := by
    have hlooked : { s with tasks := s.tasks.eraseIdx k }.requesters[
        ((s.objects r).job r id ok resp).userdata.reqid]? = some r := hfound
    unfold HttpOutRequestDisp.onCallDoneTask
    rw [hlooked]
  rw [heq]
  refine h.goOn hr hanswered (.found id ok resp) rfl rfl rfl (Function.update_eq_self _ _).symm rfl rfl ?_ rfl ?_
    ?_ (h.requesters_kept hanswered rfl) (h.reports_kept hanswered rfl) (h.callbacks_kept hanswered rfl) h.present
  · show ((s.tasks.eraseIdx k : List Task) : Multiset Task) + {_} = _
    rw [coe_eraseIdx ht]
    exact (add_zero _).symm
  · show ((s.completing ++ [_] : List (Option Nat × JobInfo)) : Multiset (Option Nat × JobInfo)) + 0 = _
    rw [← Multiset.coe_add]
    exact add_zero _
  · intro curl t
    refine (h.transfers_of_none hanswered rfl curl t).trans ?_
    simp [Phase.transfer]

/-- `onRequesterFinishedTask`: the requester is taken out. -/
theorem Refines.onRequesterFinishedTask (h : Refines s φ) {k : Nat} {id : Int} {ok : Bool} {resp : Bytes}
    (hr : r < s.allocated) (hfinished : φ r = .finished id ok resp)
    (ht : s.tasks[k]? = some (.onRequesterFinished id)) :
    Refines ({ s with tasks := s.tasks.eraseIdx k }.onRequesterFinishedTask id)
      (Function.update φ r (.removed id ok resp)) := by
  have hfound : s.requesters[id]? = some r := by
    rw [h.requesters, hfinished]
    rfl
  have hmem : id ∈ s.requesters := by
    rw [Std.ExtTreeMap.mem_iff_isSome_getElem?, hfound]
    rfl
  have heq : { s with tasks := s.tasks.eraseIdx k }.onRequesterFinishedTask id =
      { s with tasks := s.tasks.eraseIdx k, requesters := s.requesters.erase id } := if_pos hmem
  rw [heq]
  refine h.goOn hr hfinished (.removed id ok resp) rfl rfl rfl (Function.update_eq_self _ _).symm rfl rfl ?_ rfl
    rfl
    ?_ ?_ (h.reports_kept hfinished rfl) (h.callbacks_kept hfinished rfl) h.present
  · show ((s.tasks.eraseIdx k : List Task) : Multiset Task) + {_} = _
    rw [coe_eraseIdx ht]
    exact (add_zero _).symm
  · intro curl t
    refine (h.transfers_of_none hfinished rfl curl t).trans ?_
    simp [Phase.transfer]
  · intro k' j
    refine getElem?_erase_iff.trans ?_
    simp only [Phase.registered, reduceCtorEq, and_false, false_or]
    refine and_congr_left fun hj => ?_
    -- a number is registered for one requester, and a requester under one number
    constructor
    · rintro hk rfl
      rw [h.requesters, hfinished] at hj
      exact hk (Option.some.inj hj).symm
    · rintro hne rfl
      exact hne (Option.some.inj (hj.symm.trans hfound))

/-! ## Calls -/

/-- What the rest of `onCallDoneTask` does with a requester. -/
theorem completeCall_eq (r : Nat) (ji : JobInfo) (s : HttpOutRequestDisp) : s.completeCall (some r) ji =
    { s with
      objects := Function.update s.objects r { s.objects r with isFinished := true }
      callbacks := s.callbacks ++ [⟨r, if !ji.success then .fail else .ok ji.resp⟩]
      tasks := s.tasks ++ [.onRequesterFinished (s.objects r).id] } := by
  have hself : (s.onCallDone r ji.userdata.requesterCallid ji.success ji.resp).objects r =
      { s.objects r with isFinished := true } := Function.update_self _ _ _
  unfold completeCall
  dsimp only
  rw [hself, if_pos rfl]
  rfl

/-- The rest of `onCallDoneTask`: the requester is told. -/
theorem Refines.completeCall (h : Refines s φ) {k : Nat} {id : Int} {ok : Bool} {resp : Bytes}
    (hr : r < s.allocated) (hfound : φ r = .found id ok resp)
    (hc : s.completing[k]? = some (some r, (s.objects r).job r id ok resp)) :
    Refines ({ s with completing := s.completing.eraseIdx k }.completeCall (some r)
      ((s.objects r).job r id ok resp)) (Function.update φ r (.finished id ok resp)) := by
  have hid : (s.objects r).id = id := (h.ids r id (by rw [hfound]; rfl)).1
  have hbefore : s.callbacksOf r = [] := by
    rw [h.callbacks, hfound]
    rfl
  rw [completeCall_eq]
  refine h.goOn hr hfound (.finished id ok resp) rfl rfl rfl rfl rfl rfl ?_ rfl ?_ ?_
    (h.requesters_kept hfound rfl) (h.reports_kept hfound rfl) ?_ h.present
  · show ((s.tasks ++ [Task.onRequesterFinished (s.objects r).id] : List Task) : Multiset Task) + 0 = _
    rw [hid, ← Multiset.coe_add]
    exact add_zero _
  · show ((s.completing.eraseIdx k : List (Option Nat × JobInfo)) : Multiset (Option Nat × JobInfo)) + {_} = _
    rw [coe_eraseIdx hc]
    exact (add_zero _).symm
  · intro curl t
    refine (h.transfers_of_none hfound rfl curl t).trans ?_
    simp [Phase.transfer]
  · intro j
    show ((s.callbacks ++ [_]).filter _).map Called.result = _
    rw [List.filter_append, List.map_append]
    by_cases hj : j = r
    · subst hj
      rw [if_pos rfl]
      show s.callbacksOf j ++ _ = _
      rw [hbefore, List.filter_cons_of_pos (by simp), List.filter_nil]
      rfl
    · rw [if_neg hj, List.filter_cons_of_neg (by simpa using Ne.symm hj)]
      exact List.append_nil _

/-- A transfer says whose it is. -/
theorem caller_of_transfer {p : Phase} {o : Requester} {curl : Nat} {t : Transfer}
    (h : p.transfer r o = some (curl, t)) : t.job.userdata.caller = r := by
  cases p with
  | transferring id curl' =>
      obtain ⟨-, rfl⟩ := Prod.mk.inj (Option.some.inj h)
      rfl
  | _ => exact absurd h (by simp [Phase.transfer])

/-- `performTransfers`: the call is reported. -/
theorem Refines.performTransfer (h : Refines s φ) {id : Int} {curl : Nat} (hr : r < s.allocated)
    (htransferring : φ r = .transferring id curl) (ok : Bool) (resp : Bytes) {s' : HttpOutRequestDisp}
    (hstep : s.step (.transfer curl ok resp) = some s') :
    Refines s' (Function.update φ r (.reported id ok resp)) := by
  have hfound : s.client.eCurls[curl]? = some ((s.objects r).transfer r id) :=
    (h.transfers curl _).mpr ⟨r, by rw [htransferring]; rfl⟩
  have heq : s' = { s with
      client := ⟨s.client.eCurls.erase curl, s.client.tasks ++ [(s.objects r).job r id ok resp]⟩
      reports := s.reports ++ [(s.objects r).report r id ok resp] } := by
    refine (Option.some.inj hstep).symm.trans ?_
    unfold HttpClientAsync.performTransfer
    rw [hfound]
    rfl
  have hbefore : s.reportsOf r = [] := by
    rw [h.reports, htransferring]
    rfl
  rw [heq]
  refine h.goOn hr htransferring (.reported id ok resp) rfl rfl rfl (Function.update_eq_self _ _).symm rfl rfl
    rfl
    ?_ rfl ?_ (h.requesters_kept htransferring rfl) ?_ (h.callbacks_kept htransferring rfl) h.present
  · show ((s.client.tasks ++ [_] : List JobInfo) : Multiset JobInfo) + 0 = _
    rw [← Multiset.coe_add]
    exact add_zero _
  · intro curl' t
    refine getElem?_erase_iff.trans ?_
    rw [h.transfers]
    simp only [Phase.transfer, reduceCtorEq, false_or]
    constructor
    · rintro ⟨hne, j, hj⟩
      refine ⟨j, ?_, hj⟩
      rintro rfl
      rw [htransferring] at hj
      exact hne (Prod.mk.inj (Option.some.inj hj)).1.symm
    · rintro ⟨j, hne, hj⟩
      refine ⟨?_, j, hj⟩
      rintro rfl
      -- two transfers under one handle are one, and one requester's
      have hother := (h.transfers curl' t).mpr ⟨j, hj⟩
      obtain rfl := Option.some.inj (hfound.symm.trans hother)
      exact hne (caller_of_transfer hj).symm
  · intro j
    show (s.reports ++ [_]).filter _ = _
    rw [List.filter_append]
    by_cases hj : j = r
    · subst hj
      rw [if_pos rfl]
      show s.reportsOf j ++ _ = _
      rw [hbefore, List.filter_cons_of_pos (by simp), List.filter_nil]
      rfl
    · rw [if_neg hj, List.filter_cons_of_neg fun heq => hj (of_decide_eq_true heq).symm]
      exact List.append_nil _

/-- `callHandler`: the answer becomes a task. -/
theorem Refines.callHandler (h : Refines s φ) {k : Nat} {id : Int} {ok : Bool} {resp : Bytes}
    (hr : r < s.allocated) (hreported : φ r = .reported id ok resp)
    (hk : s.client.tasks[k]? = some ((s.objects r).job r id ok resp)) :
    Refines ({ s with client := { s.client with tasks := s.client.tasks.eraseIdx k } }.addTask
      (.onCallDone ((s.objects r).job r id ok resp))) (Function.update φ r (.answered id ok resp)) := by
  refine h.goOn hr hreported (.answered id ok resp) rfl rfl rfl (Function.update_eq_self _ _).symm rfl rfl ?_ ?_
    rfl ?_ (h.requesters_kept hreported rfl) (h.reports_kept hreported rfl) (h.callbacks_kept hreported rfl)
    h.present
  · show ((s.tasks ++ [_] : List Task) : Multiset Task) + 0 = _
    rw [← Multiset.coe_add]
    exact add_zero _
  · show ((s.client.tasks.eraseIdx k : List JobInfo) : Multiset JobInfo) + {_} = _
    rw [coe_eraseIdx hk]
    exact (add_zero _).symm
  · intro curl t
    refine (h.transfers_of_none hreported rfl curl t).trans ?_
    simp [Phase.transfer]

/-! ## Steps -/

/-- A step that moves one requester on. -/
def Moves (s : HttpOutRequestDisp) (φ : Nat → Phase) (s' : HttpOutRequestDisp) : Prop :=
  ∃ r p, r < s.allocated ∧ (φ r).Next p ∧ Refines s' (Function.update φ r p)

/-- **A task** is some requester's, in the phase it is in. -/
theorem Refines.moves_task (h : Refines s φ) {k curl : Nat} (hp : Promised s (.task k curl))
    (hstep : s.step (.task k curl) = some s') : Moves s φ s' := by
  obtain ⟨t, ht, rfl⟩ := Option.map_eq_some_iff.mp hstep
  obtain ⟨r, hr, hmem⟩ := exists_mem_of_sum h.tasks (List.mem_of_getElem? ht)
  cases hφ : φ r with
  | added =>
      rw [hφ] at hmem
      obtain rfl := Multiset.mem_singleton.mp hmem
      exact ⟨r, _, hr, hφ ▸ .start _, h.addRequesterTask hr hφ ht⟩
  | called id =>
      rw [hφ] at hmem
      obtain rfl := Multiset.mem_singleton.mp hmem
      refine ⟨r, _, hr, hφ ▸ .call id curl, h.callTask hr hφ ht ?_⟩
      unfold Promised at hp
      dsimp only at hp
      rw [ht] at hp
      unfold Requester.callTask at hp
      cases hpost : (s.objects r).postdata with
      | none =>
          rw [hpost] at hp
          exact hp
      | some postdata =>
          rw [hpost] at hp
          exact hp
  | answered id ok resp =>
      rw [hφ] at hmem
      obtain rfl := Multiset.mem_singleton.mp hmem
      exact ⟨r, _, hr, hφ ▸ .find id ok resp, h.onCallDoneTask hr hφ ht⟩
  | finished id ok resp =>
      rw [hφ] at hmem
      obtain rfl := Multiset.mem_singleton.mp hmem
      exact ⟨r, _, hr, hφ ▸ .remove id ok resp, h.onRequesterFinishedTask hr hφ ht⟩
  | transferring id curl' => exact absurd hmem (by simp [hφ, Phase.tasks])
  | reported id ok resp => exact absurd hmem (by simp [hφ, Phase.tasks])
  | found id ok resp => exact absurd hmem (by simp [hφ, Phase.tasks])
  | removed id ok resp => exact absurd hmem (by simp [hφ, Phase.tasks])

/-- A run of `onCallDoneTask` behind the lock. -/
theorem Refines.moves_completing (h : Refines s φ) {k : Nat} (hstep : s.step (.completing k) = some s') :
    Moves s φ s' := by
  obtain ⟨c, hc, rfl⟩ := Option.map_eq_some_iff.mp hstep
  obtain ⟨r, hr, hmem⟩ := exists_mem_of_sum h.completing (List.mem_of_getElem? hc)
  cases hφ : φ r with
  | found id ok resp =>
      rw [hφ] at hmem
      obtain rfl := Multiset.mem_singleton.mp hmem
      exact ⟨r, _, hr, hφ ▸ .finish id ok resp, h.completeCall hr hφ hc⟩
  | _ => exact absurd hmem (by simp [hφ, Phase.completing])

/-- A transfer under a handle in use. -/
theorem Refines.moves_transfer (h : Refines s φ) {curl : Nat} {t : Transfer}
    (hcurl : s.client.eCurls[curl]? = some t) {ok : Bool} {resp : Bytes}
    (hstep : s.step (.transfer curl ok resp) = some s') : Moves s φ s' := by
  obtain ⟨r, hr⟩ := (h.transfers curl t).mp hcurl
  cases hφ : φ r with
  | transferring id curl' =>
      rw [hφ] at hr
      obtain ⟨rfl, -⟩ := Prod.mk.inj (Option.some.inj hr)
      have hlt : r < s.allocated := by
        by_contra hge
        rw [h.unmade r (Nat.le_of_not_lt hge)] at hφ
        exact absurd hφ (by simp)
      exact ⟨r, _, hlt, hφ ▸ .report id curl' ok resp, h.performTransfer hlt hφ ok resp hstep⟩
  | _ => exact absurd hr (by simp [hφ, Phase.transfer])

/-- A task of the client's launcher. -/
theorem Refines.moves_callHandler (h : Refines s φ) {k : Nat} (hstep : s.step (.callHandler k) = some s') :
    Moves s φ s' := by
  obtain ⟨ji, hk, rfl⟩ := Option.map_eq_some_iff.mp hstep
  obtain ⟨r, hr, hmem⟩ := exists_mem_of_sum h.handlers (List.mem_of_getElem? hk)
  cases hφ : φ r with
  | reported id ok resp =>
      rw [hφ] at hmem
      obtain rfl := Multiset.mem_singleton.mp hmem
      exact ⟨r, _, hr, hφ ▸ .handle id ok resp, h.callHandler hr hφ hk⟩
  | _ => exact absurd hmem (by simp [hφ, Phase.handlers])

/-- **Each step** leaves the phases as they are, or moves one requester on. -/
theorem Refines.step_cases (h : Refines s φ) {input : Input} (hp : Promised s input)
    (hstep : s.step input = some s') : Refines s' φ ∨ Moves s φ s' := by
  cases input with
  | addRequester callUrl postdata =>
      obtain rfl := Option.some.inj hstep
      exact Or.inl (h.addRequester hp callUrl postdata)
  | task k curl => exact Or.inr (h.moves_task hp hstep)
  | completing k => exact Or.inr (h.moves_completing hstep)
  | transfer curl ok resp =>
      cases hcurl : s.client.eCurls[curl]? with
      | none =>
          have hsame : s' = s := by
            refine (Option.some.inj hstep).symm.trans ?_
            unfold HttpClientAsync.performTransfer
            rw [hcurl]
            simp
          exact Or.inl (hsame ▸ h)
      | some t => exact Or.inr (h.moves_transfer hcurl hstep)
  | callHandler k => exact Or.inr (h.moves_callHandler hstep)

theorem Refines.step (h : ∃ φ, Refines s φ) {input : Input} (hp : Promised s input)
    (hstep : s.step input = some s') : ∃ φ', Refines s' φ' := by
  obtain ⟨φ, h⟩ := h
  rcases h.step_cases hp hstep with h | ⟨r, p, -, -, h⟩
  · exact ⟨φ, h⟩
  · exact ⟨_, h⟩

/-! ## Coming to an end -/

/-- Only `addRequester` makes requesters. -/
theorem allocated_step {input : Input} (hstep : s.step input = some s')
    (hnot : ∀ callUrl postdata, input ≠ .addRequester callUrl postdata) : s'.allocated = s.allocated := by
  cases input with
  | addRequester callUrl postdata => exact absurd rfl (hnot callUrl postdata)
  | task k curl =>
      obtain ⟨t, -, rfl⟩ := Option.map_eq_some_iff.mp hstep
      cases t with
      | addRequester r =>
          show ({ s with tasks := s.tasks.eraseIdx k }.addRequesterTask r).allocated = _
          rw [addRequesterTask_eq]
      | onCall reqid callid url caller => rfl
      | onCallPost reqid callid url postdata caller => rfl
      | onCallDone ji =>
          show ({ s with tasks := s.tasks.eraseIdx k }.onCallDoneTask ji).allocated = _
          unfold onCallDoneTask
          split <;> rfl
      | onRequesterFinished reqid => exact apply_ite allocated _ _ _ |>.trans (ite_self _)
  | completing k =>
      obtain ⟨⟨_ | r, ji⟩, -, rfl⟩ := Option.map_eq_some_iff.mp hstep
      · rfl
      · show ({ s with completing := s.completing.eraseIdx k }.completeCall (some r) ji).allocated = _
        rw [completeCall_eq]
  | transfer curl ok resp =>
      obtain rfl := Option.some.inj hstep
      rfl
  | callHandler k =>
      obtain ⟨ji, -, rfl⟩ := Option.map_eq_some_iff.mp hstep
      rfl

/-- What is left to do for all requesters. -/
def left (s : HttpOutRequestDisp) (φ : Nat → Phase) : Nat := ∑ r ∈ Finset.range s.allocated, (φ r).left

/-- **While something is outstanding** a step can be made that moves a requester on. -/
theorem Refines.progress (h : Refines s φ) (hnot : ¬ Quiet s) :
    ∃ input s', Promised s input ∧ s.step input = some s' ∧ s'.allocated = s.allocated ∧ Moves s φ s' := by
  by_cases htasks : s.tasks = []
  · by_cases hcompleting : s.completing = []
    · by_cases hhandlers : s.client.tasks = []
      · have hsome : s.client.eCurls ≠ ∅ := fun hnone => hnot ⟨htasks, hcompleting, hnone, hhandlers⟩
        obtain ⟨curl, t, hcurl⟩ : ∃ (curl : Nat) (t : Transfer), s.client.eCurls[curl]? = some t := by
          by_contra hno
          exact hsome (eq_empty_of_getElem? fun curl t hcurl => hno ⟨curl, t, hcurl⟩)
        refine ⟨.transfer curl true [], _, True.intro, rfl, rfl, h.moves_transfer hcurl rfl⟩
      · obtain ⟨ji, rest, hcons⟩ := List.exists_cons_of_ne_nil hhandlers
        have hstep : ∃ s', s.step (.callHandler 0) = some s' := by simp [HttpOutRequestDisp.step, hcons]
        obtain ⟨s', hstep⟩ := hstep
        exact ⟨.callHandler 0, s', True.intro, hstep, allocated_step hstep (by simp), h.moves_callHandler hstep⟩
    · obtain ⟨c, rest, hcons⟩ := List.exists_cons_of_ne_nil hcompleting
      have hstep : ∃ s', s.step (.completing 0) = some s' := by simp [HttpOutRequestDisp.step, hcons]
      obtain ⟨s', hstep⟩ := hstep
      exact ⟨.completing 0, s', True.intro, hstep, allocated_step hstep (by simp), h.moves_completing hstep⟩
  · obtain ⟨t, rest, hcons⟩ := List.exists_cons_of_ne_nil htasks
    -- there is a handle that is not in use
    obtain ⟨curl, hcurl⟩ := Infinite.exists_notMem_finset s.client.eCurls.keys.toFinset
    have hfree : curl ∉ s.client.eCurls := fun hmem =>
      hcurl (List.mem_toFinset.mpr (Std.ExtTreeMap.mem_keys.mpr hmem))
    have hp : Promised s (.task 0 curl) := by
      unfold Promised
      dsimp only
      split
      · exact hfree
      · exact hfree
      · exact True.intro
    have hstep : ∃ s', s.step (.task 0 curl) = some s' := by simp [HttpOutRequestDisp.step, hcons]
    obtain ⟨s', hstep⟩ := hstep
    exact ⟨_, s', hp, hstep, allocated_step hstep (by simp), h.moves_task hp hstep⟩

/-- **What is outstanding can be brought to its end.** -/
theorem Refines.completes (h : Refines s φ) : ∃ inputs t, Along HttpOutRequestDisp.step Promised s inputs ∧
    Lib.run HttpOutRequestDisp.step s inputs = some t ∧ t.allocated = s.allocated ∧ Quiet t := by
  generalize hn : s.left φ = n
  induction n using Nat.strong_induction_on generalizing s φ with
  | _ n ih =>
      by_cases hquiet : Quiet s
      · exact ⟨[], s, True.intro, rfl, rfl, hquiet⟩
      · obtain ⟨input, s', hp, hstep, halloc, r, p, hr, hnext, hafter⟩ := h.progress hquiet
        have hless : s'.left (Function.update φ r p) < n := by
          have hsum := sum_change (f := fun j => (φ j).left) (g := fun j => (Function.update φ r p j).left) hr
            (fun j hj => by rw [Function.update_of_ne hj])
          have hleft := Phase.left_next hnext
          rw [Function.update_self] at hsum
          rw [left, halloc]
          rw [left] at hn
          omega
        obtain ⟨inputs, t, halong, hrun, halloc', hend⟩ := ih _ hless hafter rfl
        refine ⟨input :: inputs, t, ⟨hp, fun u hu => ?_⟩, ?_, halloc'.trans halloc, hend⟩
        · obtain rfl := Option.some.inj (hstep.symm.trans hu)
          exact halong
        · show (s.step input).bind _ = _
          rw [hstep]
          exact hrun

/-- With nothing outstanding, every requester has been taken out. -/
theorem Refines.removed_of_quiet (h : Refines s φ) (hquiet : Quiet s) (hr : r < s.allocated) :
    ∃ id ok resp, φ r = .removed id ok resp := by
  have htasks := h.tasks
  have hcompleting := h.completing
  have hhandlers := h.handlers
  rw [hquiet.tasks] at htasks
  rw [hquiet.completing] at hcompleting
  rw [hquiet.handlers] at hhandlers
  have hnotask := eq_zero_of_sum htasks hr
  have hnorun := eq_zero_of_sum hcompleting hr
  have hnohandler := eq_zero_of_sum hhandlers hr
  cases hφ : φ r with
  | removed id ok resp => exact ⟨id, ok, resp, rfl⟩
  | transferring id curl =>
      have hcurl := (h.transfers curl _).mpr ⟨r, by rw [hφ]; rfl⟩
      rw [hquiet.transfers] at hcurl
      exact absurd hcurl (by simp)
  | added => exact absurd hnotask (by simp [hφ, Phase.tasks])
  | called id => exact absurd hnotask (by simp [hφ, Phase.tasks])
  | answered id ok resp => exact absurd hnotask (by simp [hφ, Phase.tasks])
  | finished id ok resp => exact absurd hnotask (by simp [hφ, Phase.tasks])
  | reported id ok resp => exact absurd hnohandler (by simp [hφ, Phase.handlers])
  | found id ok resp => exact absurd hnorun (by simp [hφ, Phase.completing])

/-! ## The dispatcher -/

/-- The number of a requester whose `addRequesterTask` has run. -/
theorem Refines.id_of_added (h : Refines s φ) (hr : r < s.allocated) (hrun : .addRequester r ∉ s.tasks) :
    (φ r).id = some (s.objects r).id := by
  have hne : φ r ≠ .added := by
    intro hadded
    have hmem : Task.addRequester r ∈ (s.tasks : Multiset Task) := by
      rw [h.tasks]
      refine Multiset.mem_sum.mpr ⟨r, Finset.mem_range.mpr hr, ?_⟩
      rw [hadded]
      exact Multiset.mem_singleton_self _
    exact hrun hmem
  obtain ⟨k, hk⟩ : ∃ k, (φ r).id = some k := by
    cases hφ : φ r with
    | added => exact absurd hφ hne
    | _ => exact ⟨_, rfl⟩
  rw [hk, (h.ids r k hk).1]

/-- **Every answer reaches its requester once.** In every run the environment keeps its promises in: the
    numbers given are pairwise distinct; a requester makes at most one callback, with the result reported for
    its own call; no number is looked up that is not there; when nothing is outstanding, the table is empty and
    each requester has made its callback; and what is outstanding can always be brought to that end. -/
theorem delivered_once {inputs : List Input} (hpromised : Along HttpOutRequestDisp.step Promised new inputs)
    (hrun : Lib.run HttpOutRequestDisp.step new inputs = some s) :
    (∀ q r, q < s.allocated → r < s.allocated → q ≠ r → .addRequester q ∉ s.tasks → .addRequester r ∉ s.tasks →
        (s.objects q).id ≠ (s.objects r).id) ∧
      (∀ r, s.callbacksOf r <+: (s.reportsOf r).map Transfer.result ∧ (s.reportsOf r).length ≤ 1 ∧
        ∀ t ∈ s.reportsOf r, t.url = (s.objects r).callUrl ∧ t.postFields = (s.objects r).postdata) ∧
      s.missing = false ∧
      (Quiet s → s.requesters = ∅ ∧
        ∀ r < s.allocated, ∃ t, s.reportsOf r = [t] ∧ s.callbacksOf r = [t.result]) ∧
      ∃ more t, Along HttpOutRequestDisp.step Promised s more ∧
        Lib.run HttpOutRequestDisp.step s more = some t ∧ t.allocated = s.allocated ∧ Quiet t := by
  obtain ⟨φ, h⟩ := hpromised.invariant (fun s => ∃ φ, Refines s φ)
    (fun h hp hstep => Refines.step h hp hstep) ⟨_, refines_new⟩ hrun
  refine ⟨?_, ?_, h.present, ?_, h.completes⟩
  · intro q r hq hr hne hqrun hrrun heq
    have hidq := h.id_of_added hq hqrun
    rw [heq] at hidq
    exact hne (h.distinct q r _ hidq (h.id_of_added hr hrrun))
  · intro r
    have honce := (φ r).callbacks_reported r (s.objects r)
    rw [h.callbacks, h.reports]
    exact ⟨honce.1, honce.2, fun t ht => Phase.own_report ht⟩
  · intro hquiet
    constructor
    · refine eq_empty_of_getElem? fun k r hk => ?_
      have hregistered := (h.requesters k r).mp hk
      by_cases hr : r < s.allocated
      · obtain ⟨id, ok, resp, hremoved⟩ := h.removed_of_quiet hquiet hr
        rw [hremoved] at hregistered
        exact absurd hregistered (by simp [Phase.registered])
      · rw [h.unmade r (Nat.le_of_not_lt hr)] at hregistered
        exact absurd hregistered (by simp [Phase.registered, Phase.id])
    · intro r hr
      obtain ⟨id, ok, resp, hremoved⟩ := h.removed_of_quiet hquiet hr
      refine ⟨(s.objects r).report r id ok resp, ?_, ?_⟩
      · rw [h.reports, hremoved]
        rfl
      · rw [h.callbacks, hremoved]
        rfl

/-- Two requesters, the second begun first; its transfer ends first and fails. -/
def crossed : List Input :=
  [.addRequester (ascii "/a") none, .addRequester (ascii "/b") (some (ascii "x")), .task 1 0, .task 1 7,
    .task 0 0, .transfer 7 false [], .task 0 8, .transfer 8 true (ascii "ok"), .callHandler 1, .task 0 0,
    .completing 0, .callHandler 0, .task 0 0, .task 0 0, .completing 0, .task 0 0]

theorem crossed_runs : (Lib.run HttpOutRequestDisp.step new crossed).isSome = true := by decide +kernel

/-- The theorem at that run. -/
theorem crossed_delivered : ∃ s, Lib.run HttpOutRequestDisp.step new crossed = some s ∧ s.allocated = 2 ∧
    s.callbacks = [⟨0, .ok (ascii "ok")⟩, ⟨1, .fail⟩] ∧ s.missing = false := by
  have hpromised : Along HttpOutRequestDisp.step Promised new crossed := by decide +kernel
  refine ⟨_, (Option.some_get crossed_runs).symm, by decide +kernel, by decide +kernel, ?_⟩
  exact (delivered_once hpromised (Option.some_get crossed_runs).symm).2.2.1

end HttpOutRequestDisp
end Network
end Hiaux
