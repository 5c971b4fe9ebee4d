import Hiaux.Network.HttpClient
import Hiaux.Network.HttpClientAsync

/-!
# `Network.Correctness.Bodies` — the bodies that the HTTP clients carry

Both ways a body goes through a C string. A response loses, in each piece, what stands behind the first NUL of the
piece (`crawl_eq`), and a posted body ends at its first NUL.
-/

namespace Hiaux
namespace Network

open Lib

variable {chunks : List Bytes} {stream : Bytes}

/-! ## Responses -/

theorem crawlFunctionPt_eq (ptr stream : Bytes) : crawlFunctionPt ptr stream = (ptr.length, stream ++ cStr ptr) := by
  rw [crawlFunctionPt]
  split
  · rename_i hnone
    rw [List.eq_nil_of_length_eq_zero hnone]
    exact congrArg (Prod.mk 0) (List.append_nil stream).symm
  · exact congrArg (fun text => (ptr.length, stream ++ text)) (cStr_append_zero ptr [])

/-- **What is left of a response**: every piece up to its first NUL. -/
theorem crawl_eq (chunks : List Bytes) (stream : Bytes) :
    crawl chunks stream = stream ++ (chunks.map cStr).flatten := by
  induction chunks generalizing stream with
  | nil => exact (List.append_nil stream).symm
  | cons ptr chunks ih =>
      have hstep : crawl (ptr :: chunks) stream = crawl chunks (stream ++ cStr ptr) := by
        rw [crawl, List.foldl_cons, crawlFunctionPt_eq, ← crawl]
      rw [hstep, ih, List.map_cons, List.flatten_cons, List.append_assoc]

theorem length_flatten_cStr_le (chunks : List Bytes) : (chunks.map cStr).flatten.length ≤ chunks.flatten.length := by
  induction chunks with
  | nil => exact Nat.le_refl 0
  | cons ptr chunks ih =>
      have hptr := cStr_length_le ptr
      simp only [List.map_cons, List.flatten_cons, List.length_append]
      omega

/-- Pieces of a body lose nothing if none of them has a NUL. -/
theorem flatten_cStr_iff : (chunks.map cStr).flatten = chunks.flatten ↔ 0 ∉ chunks.flatten := by
  induction chunks with
  | nil => simp
  | cons ptr chunks ih =>
      rw [List.map_cons, List.flatten_cons, List.flatten_cons, List.mem_append, not_or, ← ih, ← cStr_eq_self_iff]
      constructor
      · intro h
        have hptr := cStr_length_le ptr
        have hrest := length_flatten_cStr_le chunks
        have hlength := congrArg List.length h
        rw [List.length_append, List.length_append] at hlength
        exact List.append_inj h (by omega)
      · rintro ⟨hptr, hrest⟩
        rw [hptr, hrest]

/-! ## Bodies -/

/-- The body that the handle of a call in the background posts. -/
def HttpClientAsync.body (curlBody : Bytes → Bytes) (c : HttpClientAsync) (curl : Nat) : Option Bytes :=
  c.eCurls[curl]?.bind (fun t => t.postFields.map curlBody)

theorem HttpClientAsync.body_callPost (curlBody : Bytes → Bytes) {curl : Nat} {c : HttpClientAsync}
    (hcurl : curl ∉ c.eCurls) (userdata : OutRequestInfo) (url postdata : Bytes) :
    (c.callPost curl userdata url postdata).body curlBody curl = some (curlBody postdata) := by
  rw [HttpClientAsync.body, HttpClientAsync.callPost, Std.ExtTreeMap.getElem?_insertIfNew]
  simp [hcurl]

/-- **Which bodies are carried as they are**: those without a NUL, in both directions and for both clients.
    `curl_easy_init` returns a handle that is not in use. -/
theorem bodies_iff {curlBody : Bytes → Bytes} (hbody : ∀ fields, curlBody fields = cStr fields) :
    (∀ chunks stream, crawl chunks stream = stream ++ chunks.flatten ↔ 0 ∉ chunks.flatten) ∧
    (∀ url b resp p curl,
      (HttpClient.callPost url b resp p curl).curl.body curlBody = some b ↔ 0 ∉ b) ∧
    ∀ (c : HttpClientAsync) (curl : Nat) (userdata : OutRequestInfo) (url b : Bytes), curl ∉ c.eCurls →
      ((c.callPost curl userdata url b).body curlBody curl = some b ↔ 0 ∉ b) := by
  have hwhole : ∀ b, some (curlBody b) = some b ↔ 0 ∉ b := by
    intro b
    rw [hbody, Option.some_inj, cStr_eq_self_iff]
  refine ⟨fun chunks stream => ?_, fun url b resp p curl => hwhole b, fun c curl userdata url b hcurl => ?_⟩
  · rw [crawl_eq, List.append_cancel_left_eq, flatten_cStr_iff]
  · rw [c.body_callPost curlBody hcurl, hwhole]

/-- A text comes in two pieces, and another one is posted. -/
theorem bodies_iff_text :
    crawl [ascii "ab", ascii "c"] [] = [] ++ [ascii "ab", ascii "c"].flatten ∧
      (HttpClient.callPost (ascii "u") (ascii "x=1") [] ⟨[], true, 200⟩ ⟨[], none⟩).curl.body cStr =
        some (ascii "x=1") ∧
      ((⟨∅, []⟩ : HttpClientAsync).callPost 7 ⟨1, 1, 0⟩ (ascii "u") (ascii "x=1")).body cStr 7 =
        some (ascii "x=1") := by
  obtain ⟨hcrawl, hpost, hasync⟩ := @bodies_iff cStr fun _ => rfl
  refine ⟨(hcrawl _ _).mpr (by decide), (hpost _ _ _ _ _).mpr (by decide), ?_⟩
  exact (hasync ⟨∅, []⟩ 7 _ _ _ (by simp)).mpr (by decide)

/-- **A NUL ends a body**, in both directions. -/
theorem bodies_cut_at_nul :
    crawl [[1, 0, 2]] [] = [1] ∧ crawl [[1, 0, 2]] [] ≠ [] ++ [[1, 0, 2]].flatten ∧
      (HttpClient.callPost [] [1, 0, 2] [] ⟨[], true, 200⟩ ⟨[], none⟩).curl.body cStr = some [1] ∧
      ((⟨∅, []⟩ : HttpClientAsync).callPost 7 ⟨1, 1, 0⟩ [] [1, 0, 2]).body cStr 7 = some [1] := by
  refine ⟨rfl, by decide, rfl, ?_⟩
  exact HttpClientAsync.body_callPost cStr (by simp) _ _ _

end Network
end Hiaux
