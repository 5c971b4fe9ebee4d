import Hiaux.HttpApi.HttpApi

/-!
# `HttpApi.Correctness.Registration` — registered methods have callbacks

The tables of the API are filled by registrations, in any order and any number of times for the same name.
Whatever the order, a method whose arguments are declared has a callback of the kind `handleRequest` looks
for (`Registered`). So a request that passes the check is always given to a callback, and the two replies
`No such method` are never sent.
-/

namespace Hiaux
namespace HttpApi

open Lib HttpServer

/-- What the owner of an API may do before it serves requests. -/
inductive Registration where
  | userToken (userid token : Bytes)
  | method (name : Bytes) (argsNames : List Bytes) (onreq : StrMap → Bytes)
  | signed (name : Bytes) (argsNames : List Bytes) (onreq : StrMap → Bytes) (maxTsRange : Nat)
  | signedAsync (name : Bytes) (argsNames : List Bytes) (onreq : StrMap → List Bytes) (maxTsRange : Nat)

namespace Api

/-- One registration. -/
def register (api : Api) : Registration → Api
  | .userToken userid token => api.setUserToken userid token
  | .method name argsNames onreq => api.addMethod name argsNames onreq
  | .signed name argsNames onreq maxTsRange => api.addMethodSigned name argsNames onreq maxTsRange
  | .signedAsync name argsNames onreq maxTsRange => api.addMethodSignedAsync name argsNames onreq maxTsRange

/-- The API after a sequence of registrations. -/
def registerAll (api : Api) (rs : List Registration) : Api := rs.foldl register api

/-- Declared methods have a callback where it is looked for. -/
structure Registered (api : Api) : Prop where
  async : ∀ {method}, method ∈ api.async → method ∈ api.methodsCallbacksAsync
  sync : ∀ {method}, method ∈ api.methodsArgs → method ∉ api.async → method ∈ api.methodsCallbacks

theorem Registered.new (buildApiError : Bytes → Bytes) : Registered (.new buildApiError) :=
  ⟨fun h => absurd h (by simp [Api.new]), fun h => absurd h (by simp [Api.new])⟩

/-- A synchronous registration declares the method and gives it a callback; that it may have been
    asynchronous before does not matter, since then the old callback is still there. -/
theorem Registered.addSync {api : Api} (h : Registered api) (name : Bytes) (argsNames : List Bytes)
    (onreq : StrMap → Bytes) (signed : Std.ExtTreeMap Bytes Bool) :
    Registered { api with
      methodsArgs := api.methodsArgs.insert name argsNames
      methodsCallbacks := api.methodsCallbacks.insert name onreq
      signed := signed } := by
  refine ⟨h.async, ?_⟩
  intro method hargs hasync
  rcases Std.ExtTreeMap.mem_insert.mp hargs with heq | hargs
  · exact Std.ExtTreeMap.mem_insert.mpr (Or.inl heq)
  · exact Std.ExtTreeMap.mem_insert.mpr (Or.inr (h.sync hargs hasync))

theorem Registered.register {api : Api} (h : Registered api) (r : Registration) :
    Registered (api.register r) := by
  cases r with
  | userToken userid token => exact ⟨h.async, h.sync⟩
  | method name argsNames onreq => exact h.addSync name argsNames onreq api.signed
  | signed name argsNames onreq maxTsRange =>
      exact h.addSync name argsNames onreq (api.signed.insert name true)
  | signedAsync name argsNames onreq maxTsRange =>
      constructor
      · intro method hasync
        rcases Std.ExtTreeMap.mem_insert.mp hasync with heq | hasync
        · exact Std.ExtTreeMap.mem_insert.mpr (Or.inl heq)
        · exact Std.ExtTreeMap.mem_insert.mpr (Or.inr (h.async hasync))
      · intro method hargs hasync
        -- the method is not the one registered, which is asynchronous now
        have hne : ¬ compare name method = .eq := fun heq =>
          hasync (Std.ExtTreeMap.mem_insert.mpr (Or.inl heq))
        have hasync' : method ∉ api.async := fun hm =>
          hasync (Std.ExtTreeMap.mem_insert.mpr (Or.inr hm))
        exact h.sync ((Std.ExtTreeMap.mem_insert.mp hargs).resolve_left hne) hasync'

/-- **Every sequence of registrations** leaves declared methods with their callbacks. -/
theorem Registered.registerAll {api : Api} (h : Registered api) (rs : List Registration) :
    Registered (api.registerAll rs) := by
  induction rs generalizing api with
  | nil => exact h
  | cons r rs ih => exact ih (h.register r)

/-- A request that passes the check names a declared method. -/
theorem mem_methodsArgs_of_checkFields {api : Api} {fields : StrMap} (h : api.checkFields fields = none) :
    fields.getD (ascii "method") [] ∈ api.methodsArgs := by
  unfold checkFields at h
  split at h
  · exact absurd h (by simp)
  · rename_i method hmethod
    rw [Std.ExtTreeMap.getD_eq_getD_getElem?, hmethod]
    split at h
    · exact absurd h (by simp)
    · rename_i args hargs
      rw [Std.ExtTreeMap.mem_iff_isSome_getElem?]
      simp [hargs]

/-- **A request runs a callback exactly if it passes the check**; there always is one to run. -/
theorem handleRequest_invokes_iff (buildApiError : Bytes → Bytes) (rs : List Registration) (params : StrMap)
    (bin : Bool) : ((registerAll (.new buildApiError) rs).handleRequest params bin).invoked ≠ [] ↔
      (registerAll (.new buildApiError) rs).checkFields params = none := by
  have hreg := (Registered.new buildApiError).registerAll rs
  generalize registerAll (.new buildApiError) rs = api at hreg ⊢
  unfold handleRequest
  split
  · rename_i errMess herr
    simp [herr]
  · rename_i hcheck
    have hargs := mem_methodsArgs_of_checkFields hcheck
    -- the check passed, so the method is declared; its callback is in the table that is asked
    generalize params.getD (ascii "method") [] = method at hargs
    refine iff_of_true ?_ hcheck
    dsimp only
    split
    · rename_i hasync
      have hmem := hreg.async (Std.ExtTreeMap.mem_iff_contains.mpr hasync)
      rw [Std.ExtTreeMap.mem_iff_isSome_getElem?] at hmem
      split
      · rename_i hnone
        simp [hnone] at hmem
      · exact List.cons_ne_nil _ _
    · rename_i hasync
      have hmem := hreg.sync hargs (fun hm => hasync (Std.ExtTreeMap.mem_iff_contains.mp hm))
      rw [Std.ExtTreeMap.mem_iff_isSome_getElem?] at hmem
      split
      · rename_i hnone
        simp [hnone] at hmem
      · split <;> exact List.cons_ne_nil _ _

end Api

end HttpApi
end Hiaux
