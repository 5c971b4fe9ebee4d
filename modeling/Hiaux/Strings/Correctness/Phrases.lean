import Hiaux.Strings.Correctness.Escaping
import Hiaux.Strings.Correctness.Normalisers
import Hiaux.Strings.RefParser
import Mathlib.Data.List.Find

/-!
# `Strings.Correctness.Phrases` — which search phrases `RefParser` recovers

The referer is unescaped before it is cut, so the phrase stands in it as it is (`unescapeUrl_referer`): it is cut
at its first `&`, unescaped again, and its `+` are read as spaces. The keys of the engines are searched in the whole
unescaped text. None of them can begin in front of the phrase except those of the referer's own entry
(`findWord_referer`), but the further parameters can have some, escaped; then an engine that comes earlier in the map
may read its phrase there.
-/

namespace Hiaux
namespace Strings
namespace RefParser

open Lib Utf8

/-! ## The engines -/

theorem toList_engines : engines.toList =
    [(ascii "ask.com/search/", ascii "searchfor="), (ascii "bing.com/search", ascii "q="),
      (ascii "google.ru", ascii "q="), (ascii "mail.ru/search", ascii "q="), (ascii "nigma.ru", ascii "s="),
      (ascii "qip.ru/search", ascii "query="), (ascii "rambler.ru", ascii "query="),
      (ascii "sputnik.ru", ascii "q="), (ascii "webalta.ru/search", ascii "q="),
      (ascii "yahoo.com/search", ascii "p="), (ascii "yandex.", ascii "text=")] := by
  decide

/-- The keys of the engines, and those of their parameters. -/
def keys : List Bytes := engines.toList.map Prod.fst ++ engines.toList.map Prod.snd

/-- A text without any of the keys. -/
def KeyFree (s : Bytes) : Prop := ∀ k ∈ keys, ¬ k <:+: s

/-- What stands in a referer in front of the phrase. -/
def front (q : Bytes × Bytes) : Bytes := ascii "http://" ++ q.1 ++ ascii "?" ++ q.2

/-- The keys have no `&`, and `=` only as the last character. -/
theorem key_plain : ∀ k ∈ keys, k ≠ [] ∧ 38 ∉ k ∧ 61 ∉ k.dropLast := by
  rw [keys, toList_engines]
  decide

/-- In front of a phrase stand the keys of its entry, and no others. -/
theorem infix_front_iff : ∀ q ∈ engines.toList, ∀ k ∈ keys, k <:+: front q ↔ k = q.1 ∨ k = q.2 := by
  rw [keys, toList_engines]
  decide

theorem front_plain : ∀ q ∈ engines.toList, front q = (front q).dropLast ++ [61] ∧ 37 ∉ front q ∧ 0 ∉ front q := by
  rw [toList_engines]
  decide

/-- The key of the parameter is first found right in front of the phrase. -/
theorem findWord_front : ∀ q ∈ engines.toList,
    (findWord q.2 (front q)).map (· + q.2.length) = some (front q).length := by
  rw [toList_engines]
  decide

variable {q e : Bytes × Bytes} {k w x ref query : Bytes} {further : Option Bytes} {ws cs : List Char}
  {curlEscape curlUnescape : Bytes → Bytes}

theorem fst_mem_keys (he : e ∈ engines.toList) : e.1 ∈ keys :=
  List.mem_append_left _ (List.mem_map_of_mem he)

theorem snd_mem_keys (he : e ∈ engines.toList) : e.2 ∈ keys :=
  List.mem_append_right _ (List.mem_map_of_mem he)

/-! ## Referers -/

/-- What follows a phrase: nothing, or `&` and further parameters. -/
def furtherText : Option Bytes → Bytes
  | none => []
  | some more => 38 :: more

/-- A referer of an engine for a phrase. -/
def referer (curlEscape : Bytes → Bytes) (q : Bytes × Bytes) (w : Bytes) (further : Option Bytes) : Bytes :=
  front q ++ (escapeUrl curlEscape w ++ furtherText further)

/-- The further parameters, unescaped. -/
def unescaped (further : Option Bytes) : Option Bytes := further.map (fun more => cStr (percentDecode more))

/-- **The phrase stands in the unescaped referer as it is.** -/
theorem unescapeUrl_referer (hescape : ∀ s, curlEscape s = percentEncode isUnreserved s)
    (hcurl : ∀ s, curlUnescape s = percentDecode s) (hq : q ∈ engines.toList) (h0 : 0 ∉ w)
    (further : Option Bytes) :
    unescapeUrl curlUnescape (referer curlEscape q w further) = front q ++ (w ++ furtherText (unescaped further)) := by
  obtain ⟨-, hpercent, hzero⟩ := front_plain q hq
  have hfurther : cStr (percentDecode (furtherText further)) = furtherText (unescaped further) := by
    cases further with
    | none => rfl
    | some more => rw [furtherText, percentDecode_cons (by decide), cStr_cons, if_neg (by decide)]; rfl
  rw [unescapeUrl, hcurl, referer, percentDecode_append hpercent, escapeUrl_eq hescape,
    percentDecode_percentEncode_append (by decide), cStr_append_of_not_mem _ hzero, cStr_append_of_not_mem _ h0,
    hfurther]

theorem not_infix_concat {c : UInt8} (hc : c ∉ k) (hk : k ≠ []) (hw : ¬ k <:+: w) : ¬ k <:+: w ++ [c] := by
  intro h
  rcases List.infix_concat_iff.mp h with hsuffix | hin
  · obtain ⟨k', c', rfl⟩ := (List.eq_nil_or_concat' k).resolve_left hk
    obtain ⟨u, hu⟩ := hsuffix
    rw [← List.append_assoc] at hu
    obtain ⟨-, hlast⟩ := List.append_inj' hu rfl
    exact hc (by rw [hlast]; simp)
  · exact hw hin

/-- **Where the keys are found**: those of other entries in the further parameters only. -/
theorem findWord_referer (hq : q ∈ engines.toList) (hk : k ∈ keys) (hother : ¬ (k = q.1 ∨ k = q.2))
    (hw : ¬ k <:+: w) (further : Option Bytes) :
    findWord k (front q ++ (w ++ furtherText further)) =
      (findWord k (further.getD [])).map ((front q ++ (w ++ [38])).length + ·) := by
  obtain ⟨hne, hamp, heq⟩ := key_plain k hk
  have hfront : front q ++ (w ++ furtherText further) =
      (front q).dropLast ++ 61 :: (w ++ furtherText further) := by
    conv_lhs => rw [(front_plain q hq).1]
    simp
  have hnot : ¬ k <:+: (front q).dropLast ++ [61] := by
    rw [← (front_plain q hq).1]
    exact fun h => hother ((infix_front_iff q hq k hk).mp h)
  rw [hfront, findWord_behind hnot heq, ← (front_plain q hq).1]
  cases further with
  | none =>
      have hnil : ¬ k <:+: ([] : Bytes) := fun h => hne (List.infix_nil.mp h)
      rw [furtherText, List.append_nil, findWord_eq_none_iff.mpr hw, Option.getD_none,
        findWord_eq_none_iff.mpr hnil]
      rfl
  | some more =>
      have hlast : 38 ∉ k.dropLast := fun h => hamp (List.dropLast_subset k h)
      rw [furtherText, findWord_behind (not_infix_concat hamp hne hw) hlast, Option.map_map, Option.getD_some]
      refine congrArg (fun f => Option.map f (findWord k more)) (funext fun n => ?_)
      simp only [Function.comp_apply, List.length_append]
      omega

/-! ## Reading a phrase -/

/-- The code point that is left of one: lower-cased, and `+` as a space. -/
def heard (c : Char) : Char := replaced '+' ' ' (lowerChar c)

theorem length_encode_replaced (c : Char) :
    (String.utf8EncodeChar (replaced '+' ' ' c)).length = (String.utf8EncodeChar c).length := by
  unfold replaced
  split
  · rename_i hc
    rw [hc]
    decide
  · rfl

theorem length_utf8_heard (cs : List Char) : (utf8 (cs.map heard)).length = (utf8 cs).length :=
  length_utf8_map (fun c => (length_encode_replaced (lowerChar c)).trans (length_encode_lowerChar c)) cs

/-- The phrase of a text: up to the first `&`, unescaped, up to the first byte that is not UTF-8. -/
def Says (x : Bytes) (phrase : List Char) : Prop :=
  ∃ cs, LongestValid (cStr (percentDecode (x.takeWhile (· != 38)))) cs ∧ cs.map heard = phrase

theorem substr_find_eq (x : Bytes) : substr x 0 ((find 38 x).getD x.length) = x.takeWhile (· != 38) := by
  cases hfind : find 38 x with
  | none => rw [takeWhile_of_find_none hfind, Option.getD_none, substr_zero, List.take_length]
  | some n => rw [takeWhile_of_find hfind, Option.getD_some]

/-- **An engine that answers** reads what is said behind the key of its parameter. -/
theorem parseEngineReferer_answers (hcurl : ∀ s, curlUnescape s = percentDecode s) {pos : Nat}
    (hengine : e.1 <:+: ref) (hparam : findWord e.2 ref = some pos)
    (hcs : LongestValid (cStr (percentDecode ((ref.drop (pos + e.2.length)).takeWhile (· != 38)))) cs) :
    parseEngineReferer curlUnescape ref e.1 e.2 query = (true, utf8 (cs.map heard)) := by
  have h0 := zero_not_mem_cStr (percentDecode ((ref.drop (pos + e.2.length)).takeWhile (· != 38)))
  have hlower := (toLowerUtf8_spec hcs h0).1
  have hzero : 0 ∉ utf8 (cs.map lowerChar) := zero_not_mem_lower (hcs.nul_not_mem h0)
  have hplus : (replaceCharUtf8 (utf8 (cs.map lowerChar)) 0x2B 0x20).value = utf8 (cs.map heard) := by
    have hfits : '+' ∉ cs.map lowerChar ∨ ' '.utf8Size ≤ '+'.utf8Size := Or.inr (by decide)
    have hreplaced := (replaceCharUtf8_spec '+' ' ' hzero (by decide) hfits).1
    rwa [List.map_map] at hreplaced
  obtain ⟨n, hn⟩ : ∃ n, findWord e.1 ref = some n :=
    Option.ne_none_iff_exists'.mp fun hnone => findWord_eq_none_iff.mp hnone hengine
  have hrest : substr ref (pos + e.2.length) (ref.length - (pos + e.2.length)) = ref.drop (pos + e.2.length) :=
    substr_of_le (by omega)
  rw [parseEngineReferer, hn, hparam]
  dsimp only
  rw [hrest, substr_find_eq, unescapeUrl, hcurl, hlower, hplus]

theorem parseEngineReferer_misses (h : ¬ (e.1 <:+: ref ∧ e.2 <:+: ref)) :
    parseEngineReferer curlUnescape ref e.1 e.2 query = (false, query) := by
  rw [parseEngineReferer]
  cases hengine : findWord e.1 ref with
  | none => rfl
  | some n =>
      have hin : e.1 <:+: ref := by
        by_contra hno
        exact absurd (hengine.symm.trans (findWord_eq_none_iff.mpr hno)) (by simp)
      rw [findWord_eq_none_iff.mpr fun hparam => h ⟨hin, hparam⟩]

/-- **The first engine that answers**. -/
theorem parseEngines_find {l : List (Bytes × Bytes)} {result : Bytes}
    (hfind : l.find? (fun e => decide (e.1 <:+: ref ∧ e.2 <:+: ref)) = some e)
    (hanswer : ∀ query, parseEngineReferer curlUnescape ref e.1 e.2 query = (true, result)) :
    parseEngines curlUnescape ref l query = (true, result) := by
  induction l with
  | nil => cases hfind
  | cons a l ih =>
      obtain ⟨engine, param⟩ := a
      rw [List.find?_cons] at hfind
      split at hfind
      · obtain rfl := Option.some.inj hfind
        rw [parseEngines, hanswer]
        rfl
      · rename_i hno
        have hmisses : parseEngineReferer curlUnescape ref engine param query = (false, query) :=
          parseEngineReferer_misses (of_decide_eq_false hno)
        rw [parseEngines, hmisses]
        exact ih hfind

/-! ## Which engine answers -/

/-- The first engine of the map whose keys both occur in the referer of `q`: they are the keys of `q`, or stand in
    the further parameters. -/
def answering (q : Bytes × Bytes) (further : Bytes) : Option (Bytes × Bytes) :=
  engines.toList.find? (fun e => decide ((e.1 = q.1 ∨ e.1 <:+: further) ∧ (e.2 = q.2 ∨ e.2 <:+: further)))

/-- The text behind the first key of a parameter. -/
def behindKey (param further : Bytes) : Bytes :=
  further.drop ((findWord param further).getD 0 + param.length)

theorem fst_ne_snd : ∀ q ∈ engines.toList, ∀ e ∈ engines.toList, e.1 ≠ q.2 ∧ e.2 ≠ q.1 := by
  rw [toList_engines]
  decide

theorem infix_referer_iff (hq : q ∈ engines.toList) (hk : k ∈ keys) (hw : ¬ k <:+: w) :
    k <:+: front q ++ (w ++ furtherText further) ↔ (k = q.1 ∨ k = q.2) ∨ k <:+: further.getD [] := by
  by_cases hown : k = q.1 ∨ k = q.2
  · have hfront := (infix_front_iff q hq k hk).mpr hown
    exact iff_of_true (hfront.trans (List.prefix_append _ _).isInfix) (Or.inl hown)
  · have hfind := findWord_referer hq hk hown hw further
    rw [or_iff_right hown, ← not_iff_not, ← findWord_eq_none_iff, ← findWord_eq_none_iff, hfind,
      Option.map_eq_none_iff]

/-- **Which engine reads the referer**. -/
theorem find_answering (hq : q ∈ engines.toList) (hw : KeyFree w) (further : Option Bytes) :
    engines.toList.find? (fun e => decide (e.1 <:+: front q ++ (w ++ furtherText further) ∧
      e.2 <:+: front q ++ (w ++ furtherText further))) = answering q (further.getD []) := by
  have hagree : ∀ e ∈ engines.toList, (e.1 <:+: front q ++ (w ++ furtherText further) ∧
      e.2 <:+: front q ++ (w ++ furtherText further)) ↔
      (e.1 = q.1 ∨ e.1 <:+: further.getD []) ∧ (e.2 = q.2 ∨ e.2 <:+: further.getD []) := by
    intro e he
    obtain ⟨hfst, hsnd⟩ := fst_ne_snd q hq e he
    rw [infix_referer_iff hq (fst_mem_keys he) (hw _ (fst_mem_keys he)), or_iff_left hfst,
      infix_referer_iff hq (snd_mem_keys he) (hw _ (snd_mem_keys he)), or_iff_right hsnd]
  exact List.find?_congr fun e he => decide_eq_decide.mpr (hagree e he)

theorem exists_answering (hq : q ∈ engines.toList) (further : Bytes) : ∃ e, answering q further = some e := by
  apply Option.ne_none_iff_exists'.mp
  intro hnone
  have hno := List.find?_eq_none.mp hnone q hq
  exact hno (decide_eq_true ⟨Or.inl rfl, Or.inl rfl⟩)

/-- Where the engine that answers reads: behind the phrase's own key, or behind one in the further parameters. -/
theorem exists_read (hq : q ∈ engines.toList) (hw : KeyFree w) {e : Bytes × Bytes}
    (he : answering q (further.getD []) = some e) :
    ∃ pos, findWord e.2 (front q ++ (w ++ furtherText further)) = some pos ∧
      (front q ++ (w ++ furtherText further)).drop (pos + e.2.length) =
        if e.2 = q.2 then w ++ furtherText further else behindKey e.2 (further.getD []) := by
  have hmem : e ∈ engines.toList := List.mem_of_find?_eq_some he
  have hholds := List.find?_some he
  obtain ⟨-, hparam⟩ := of_decide_eq_true hholds
  by_cases hown : e.2 = q.2
  · obtain ⟨pos, hpos, hlength⟩ := Option.map_eq_some_iff.mp (findWord_front q hq)
    refine ⟨pos, ?_, ?_⟩
    · rw [hown, findWord_append hpos]
    · rw [if_pos hown, hown, hlength, List.drop_left]
  · have hin := hparam.resolve_left hown
    obtain ⟨hne, -, -⟩ := key_plain e.2 (snd_mem_keys hmem)
    obtain ⟨n, hn⟩ : ∃ n, findWord e.2 (further.getD []) = some n :=
      Option.ne_none_iff_exists'.mp fun hnone => findWord_eq_none_iff.mp hnone hin
    have hother : ¬ (e.2 = q.1 ∨ e.2 = q.2) := not_or.mpr ⟨(fst_ne_snd q hq e hmem).2, hown⟩
    have hfind := findWord_referer hq (snd_mem_keys hmem) hother (hw _ (snd_mem_keys hmem)) further
    rw [hn] at hfind
    refine ⟨_, hfind, ?_⟩
    rw [if_neg hown, behindKey, hn]
    cases further with
    | none => exact absurd (List.infix_nil.mp hin) hne
    | some more =>
        have hsplit : front q ++ (w ++ furtherText (some more)) = front q ++ (w ++ [38]) ++ more := by
          simp [furtherText]
        rw [hsplit, Nat.add_assoc, ← List.drop_drop, List.drop_left]
        rfl

/-- **What `parse` makes of a referer**: true, and what is said where the first engine reads. -/
theorem parse_referer_iff (hescape : ∀ s, curlEscape s = percentEncode isUnreserved s)
    (hcurl : ∀ s, curlUnescape s = percentDecode s) (hq : q ∈ engines.toList) (h0 : 0 ∉ w) (hw : KeyFree w)
    {e : Bytes × Bytes} (he : answering q ((unescaped further).getD []) = some e) (query : Bytes)
    (phrase : List Char) :
    parse curlUnescape (referer curlEscape q w further) query = (true, utf8 phrase) ↔
      Says (if e.2 = q.2 then w ++ furtherText (unescaped further)
        else behindKey e.2 ((unescaped further).getD [])) phrase := by
  obtain ⟨pos, hpos, hread⟩ := exists_read hq hw he
  have hfind := (find_answering hq hw (unescaped further)).trans he
  have hholds := List.find?_some hfind
  obtain ⟨hengine, -⟩ := of_decide_eq_true hholds
  rw [parse, unescapeUrl_referer hescape hcurl hq h0, ← hread]
  obtain ⟨cs, hcs⟩ := exists_longestValid
    (cStr (percentDecode (((front q ++ (w ++ furtherText (unescaped further))).drop (pos + e.2.length)).takeWhile
      (· != 38))))
  rw [parseEngines_find hfind fun query => parseEngineReferer_answers hcurl hengine hpos hcs]
  constructor
  · intro h
    exact ⟨cs, hcs, utf8_inj.mp (Prod.mk.inj h).2⟩
  · rintro ⟨ds, hds, rfl⟩
    rw [hcs.unique hds]

/-! ## Which phrases come back -/

/-- A phrase without `&`, `+` and percent escapes. -/
def Plain (ws : List Char) : Prop := '&' ∉ ws ∧ '+' ∉ ws ∧ escapeFree (utf8 ws) = true

theorem takeWhile_furtherText (w : Bytes) (further : Option Bytes) :
    (w ++ furtherText further).takeWhile (· != 38) = w.takeWhile (· != 38) := by
  rw [List.takeWhile_append]
  split
  · rename_i hall
    have hself := List.IsPrefix.eq_of_length (List.takeWhile_prefix (· != 38)) hall
    rw [hself]
    cases further with
    | none => exact List.append_nil w
    | some more => exact List.append_nil w
  · rfl

/-- **A phrase is read as it is** if it is plain, and else shorter or with spaces for `+`. -/
theorem says_iff_plain (h0 : 0 ∉ utf8 ws) (further : Option Bytes) :
    Says (utf8 ws ++ furtherText further) (ws.map lowerChar) ↔ Plain ws := by
  have hamp : (38 : UInt8) ∈ utf8 ws ↔ '&' ∈ ws := mem_utf8_iff (by decide) rfl
  rw [Says, takeWhile_furtherText]
  constructor
  · rintro ⟨cs, hcs, hmap⟩
    have hlength : (utf8 cs).length = (utf8 ws).length := by
      rw [← length_utf8_heard, hmap, length_utf8_map length_encode_lowerChar]
    have hvalid := hcs.1.length_le
    have hcut := cStr_length_le (percentDecode ((utf8 ws).takeWhile (· != 38)))
    have hdecode := length_percentDecode_le ((utf8 ws).takeWhile (· != 38))
    have hphrase := (List.takeWhile_prefix (p := (· != 38)) (l := utf8 ws)).length_le
    have hwhole : (utf8 ws).takeWhile (· != 38) = utf8 ws :=
      List.IsPrefix.eq_of_length (List.takeWhile_prefix _) (by omega)
    rw [hwhole] at hcs hvalid hcut hdecode
    have hfree : escapeFree (utf8 ws) = true := escapeFree_of_length _ (by omega)
    rw [percentDecode_of_escapeFree _ hfree, cStr_eq_self_iff.mpr h0] at hcs
    obtain rfl := hcs.unique (longestValid_utf8 ws)
    refine ⟨?_, ?_, hfree⟩
    · intro hmem
      have hne := List.takeWhile_eq_self_iff.mp hwhole 38 (hamp.mpr hmem)
      exact absurd hne (by decide)
    · intro hmem
      have hsame := List.map_inj_left.mp hmap '+' hmem
      exact absurd hsame (by decide)
  · rintro ⟨hnamp, hplus, hfree⟩
    have hwhole : (utf8 ws).takeWhile (· != 38) = utf8 ws := by
      apply List.takeWhile_eq_self_iff.mpr
      intro b hb
      rw [bne_iff_ne]
      rintro rfl
      exact hnamp (hamp.mp hb)
    refine ⟨ws, ?_, ?_⟩
    · rw [hwhole, percentDecode_of_escapeFree _ hfree, cStr_eq_self_iff.mpr h0]
      exact longestValid_utf8 ws
    · apply List.map_congr_left
      intro c hc
      unfold heard replaced
      rw [if_neg]
      intro hlower
      exact hplus ((lowerChar_eq_iff (by decide)).mp hlower ▸ hc)

/-- When a phrase comes back: the first engine that answers reads it, and it is plain; or that engine reads another
    one in the further parameters, and there the same is said. -/
def Recovered (q : Bytes × Bytes) (ws : List Char) (further : Bytes) : Prop :=
  ∃ e, answering q further = some e ∧
    ((e.2 = q.2 ∧ Plain ws) ∨ (e.2 ≠ q.2 ∧ Says (behindKey e.2 further) (ws.map lowerChar)))

/-- **Which phrases `RefParser` recovers**. -/
theorem parse_iff (hescape : ∀ s, curlEscape s = percentEncode isUnreserved s)
    (hcurl : ∀ s, curlUnescape s = percentDecode s) (hq : q ∈ engines.toList) (h0 : 0 ∉ utf8 ws)
    (hw : KeyFree (utf8 ws)) (further : Option Bytes) (query : Bytes) :
    parse curlUnescape (referer curlEscape q (utf8 ws) further) query = (true, (toLowerUtf8 (utf8 ws)).value) ↔
      Recovered q ws ((unescaped further).getD []) := by
  obtain ⟨e, he⟩ := exists_answering hq ((unescaped further).getD [])
  have hunique : Recovered q ws ((unescaped further).getD []) ↔ (e.2 = q.2 ∧ Plain ws) ∨
      (e.2 ≠ q.2 ∧ Says (behindKey e.2 ((unescaped further).getD [])) (ws.map lowerChar)) := by
    simp [Recovered, he]
  rw [(toLowerUtf8_spec (longestValid_utf8 ws) h0).1, parse_referer_iff hescape hcurl hq h0 hw he, hunique]
  by_cases hown : e.2 = q.2
  · rw [if_pos hown, says_iff_plain h0]
    simp [hown]
  · rw [if_neg hown]
    simp [hown]

/-- `Кот` comes back in lower case, also with a parameter behind it. -/
theorem parse_iff_yandex :
    parse percentDecode (referer (percentEncode isUnreserved) (ascii "yandex.", ascii "text=")
        (utf8 ['К', 'о', 'т']) (some (ascii "lr=213"))) [] =
      (true, (toLowerUtf8 (utf8 ['К', 'о', 'т'])).value) := by
  have hq : (ascii "yandex.", ascii "text=") ∈ engines.toList := by
    rw [toList_engines]
    decide
  have hw : KeyFree (utf8 ['К', 'о', 'т']) := by
    unfold KeyFree
    rw [keys, toList_engines]
    decide
  have he : answering (ascii "yandex.", ascii "text=") ((unescaped (some (ascii "lr=213"))).getD []) =
      some (ascii "yandex.", ascii "text=") := by
    rw [answering, toList_engines]
    decide
  refine (parse_iff (fun _ => rfl) (fun _ => rfl) hq (by decide) hw _ []).mpr ⟨_, he, Or.inl ⟨rfl, ?_⟩⟩
  exact ⟨by decide, by decide, by decide⟩

/-- **Plus signs are lost**: `c++` comes back with two spaces. -/
theorem parse_plus_signs :
    parse percentDecode (referer (percentEncode isUnreserved) (ascii "google.ru", ascii "q=")
        (utf8 ['c', '+', '+']) none) [] = (true, utf8 ['c', ' ', ' ']) ∧
      parse percentDecode (referer (percentEncode isUnreserved) (ascii "google.ru", ascii "q=")
        (utf8 ['c', '+', '+']) none) [] ≠ (true, (toLowerUtf8 (utf8 ['c', '+', '+'])).value) := by
  have hq : (ascii "google.ru", ascii "q=") ∈ engines.toList := by
    rw [toList_engines]
    decide
  have hw : KeyFree (utf8 ['c', '+', '+']) := by
    unfold KeyFree
    rw [keys, toList_engines]
    decide
  have he : answering (ascii "google.ru", ascii "q=") ((unescaped none).getD []) =
      some (ascii "google.ru", ascii "q=") := by
    rw [answering, toList_engines]
    decide
  have hsays : Says (utf8 ['c', '+', '+'] ++ furtherText (unescaped none)) ['c', ' ', ' '] := by
    refine ⟨['c', '+', '+'], ?_, by decide⟩
    have hbytes : cStr (percentDecode ((utf8 ['c', '+', '+'] ++ furtherText (unescaped none)).takeWhile (· != 38))) =
        utf8 ['c', '+', '+'] := by decide
    rw [hbytes]
    exact longestValid_utf8 _
  have hparse := (parse_referer_iff (fun _ => rfl) (fun _ => rfl) hq (by decide) hw he []
    ['c', ' ', ' ']).mpr (by rw [if_pos rfl]; exact hsays)
  rw [hparse, (toLowerUtf8_spec (longestValid_utf8 _) (by decide)).1]
  exact ⟨rfl, by decide⟩

end RefParser
end Strings
end Hiaux
