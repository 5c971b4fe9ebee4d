import Hiaux.Strings.Correctness.DomainNames
import Hiaux.UrlParser.Correctness.Grammar

/-!
# `UrlParser.Correctness.Forms` — the forms that a URL is written in

`normalize` writes an accepted URL without its port and its fragment, and with a slash behind the host. That is
an accepted URL again, whose normal form is itself (`doParsing_normalize`). `getInverted` writes the host
turned round, so that it can be turned back when it is read (`new_getInverted_iff`). It leaves out the slash
in front of an empty path, and a query then becomes a part of the host.
-/

namespace Hiaux
namespace UrlParser

open Lib Strings

/-! ## Characters -/

/-- In lower case, a character of a scheme or a URL is one still, and lower case is final. -/
theorem toLower_spec (c : UInt8) : (isUrlChar c = true → isUrlChar (toLower c) = true) ∧
    (isSchemeChar c = true → isSchemeChar (toLower c) = true) ∧ toLower (toLower c) = toLower c := by
  have hall : ∀ n : Fin 256, (isUrlChar (UInt8.ofFin n) = true → isUrlChar (toLower (UInt8.ofFin n)) = true) ∧
      (isSchemeChar (UInt8.ofFin n) = true → isSchemeChar (toLower (UInt8.ofFin n)) = true) ∧
      toLower (toLower (UInt8.ofFin n)) = toLower (UInt8.ofFin n) := by decide +kernel
  exact hall c.toFin

theorem checkUrlCorrect_iff {url : Bytes} : checkUrlCorrect url = true ↔ ∀ c ∈ url, isUrlChar c = true :=
  List.all_eq_true

theorem mem_withMark {m c : UInt8} {o : Option Bytes} : c ∈ withMark m o ↔ ∃ u ∈ o, c = m ∨ c ∈ u := by
  cases o <;> simp [withMark]

namespace Parts

variable {parts : Parts}

theorem mem_render {c : UInt8} :
    c ∈ parts.render ↔ c ∈ parts.scheme ∨ c = 58 ∨ c = 47 ∨ c ∈ parts.host ∨ c ∈ withMark 58 parts.port ∨
      ∃ t ∈ parts.tail, c ∈ t.path ∨ c ∈ withMark 63 t.query ∨ c ∈ withMark 35 t.fragment := by
  have htail : c ∈ withMark 47 (parts.tail.map Tail.render) ↔ ∃ t ∈ parts.tail, c = 47 ∨ c ∈ t.render := by
    cases parts.tail <;> simp [withMark]
  rw [render, List.mem_append, List.mem_cons, List.mem_append, List.mem_append, List.mem_append, htail]
  simp only [Tail.render, List.mem_append, List.mem_cons, List.not_mem_nil, or_false, or_self]
  by_cases hslash : c = 47
  · simp [hslash]
  · simp [hslash]

/-- The fields are made of characters of the URL. -/
theorem WellFormed.isUrlChar_of_mem (h : parts.WellFormed) {c : UInt8}
    (hc : c ∈ parts.parsed.scheme ∨ c ∈ parts.parsed.host ∨ c ∈ parts.parsed.port ∨ c ∈ parts.parsed.path ∨
      c ∈ parts.parsed.query) : isUrlChar c = true := by
  have hchar : ∀ d ∈ parts.render, isUrlChar d = true := checkUrlCorrect_iff.mp h.chars
  rcases hc with hc | hc | hc | hc | hc
  · obtain ⟨d, hd, rfl⟩ := List.mem_map.mp hc
    exact (toLower_spec d).1 (hchar d (mem_render.mpr (Or.inl hd)))
  · exact hchar c (mem_render.mpr (Or.inr (Or.inr (Or.inr (Or.inl hc)))))
  · apply hchar c
    obtain ⟨u, hu⟩ : ∃ u, parts.port = some u := by
      cases hport : parts.port with
      | none => exact absurd hc (by simp [parsed, hport])
      | some u => exact ⟨u, rfl⟩
    have hcu : c ∈ u := by simpa [parsed, hu] using hc
    exact mem_render.mpr (Or.inr (Or.inr (Or.inr (Or.inr (Or.inl (mem_withMark.mpr ⟨u, hu, Or.inr hcu⟩))))))
  · apply hchar c
    obtain ⟨t, ht⟩ : ∃ t, parts.tail = some t := by
      cases htail : parts.tail with
      | none => exact absurd hc (by simp [parsed, htail])
      | some t => exact ⟨t, rfl⟩
    have hct : c ∈ t.path := by simpa [parsed, ht] using hc
    exact mem_render.mpr (Or.inr (Or.inr (Or.inr (Or.inr (Or.inr ⟨t, ht, Or.inl hct⟩)))))
  · apply hchar c
    obtain ⟨t, u, ht, hu⟩ : ∃ t u, parts.tail = some t ∧ t.query = some u := by
      cases htail : parts.tail with
      | none => exact absurd hc (by simp [parsed, htail])
      | some t =>
          cases hquery : t.query with
          | none => exact absurd hc (by simp [parsed, htail, hquery])
          | some u => exact ⟨t, u, rfl, hquery⟩
    have hcu : c ∈ u := by simpa [parsed, ht, hu] using hc
    exact mem_render.mpr (Or.inr (Or.inr (Or.inr (Or.inr (Or.inr
      ⟨t, ht, Or.inr (Or.inl (mem_withMark.mpr ⟨u, hu, Or.inr hcu⟩))⟩)))))

/-- **The fields of an accepted URL, written again.** The host may have changed its dots; the port, the path and
    the query are as they were, or left out. -/
theorem WellFormed.rewrite (h : parts.WellFormed) {host : Bytes} {port : Option Bytes} {tail : Option Tail}
    (hnamed : host ≠ []) (hhost : ∀ c ∈ host, c ∈ parts.host ∨ c = 46)
    (hport : ∀ u ∈ port, u = parts.parsed.port)
    (htail : ∀ t ∈ tail, t.path = parts.parsed.path ∧ t.fragment = none ∧ ∀ u ∈ t.query, u = parts.parsed.query) :
    (⟨parts.parsed.scheme, host, port, tail⟩ : Parts).WellFormed := by
  have hpath : ∀ c ∈ parts.parsed.path, (c == 35 || c == 63) = false := by
    intro c hc
    cases ht : parts.tail with
    | none => exact absurd hc (by simp [parsed, ht])
    | some t => exact h.path t ht c (by simpa [parsed, ht] using hc)
  have hquery : ∀ c ∈ parts.parsed.query, (c == 35) = false := by
    intro c hc
    cases ht : parts.tail with
    | none => exact absurd hc (by simp [parsed, ht])
    | some t =>
        cases hu : t.query with
        | none => exact absurd hc (by simp [parsed, ht, hu])
        | some u => exact h.query t ht u hu c (by simpa [parsed, ht, hu] using hc)
  refine ⟨?_, ?_, hnamed, ?_, ?_, ?_, ?_⟩
  · rw [checkUrlCorrect_iff]
    intro c hc
    rcases mem_render.mp hc with hc | rfl | rfl | hc | hc | ⟨t, ht, hc⟩
    · exact h.isUrlChar_of_mem (Or.inl hc)
    · rfl
    · rfl
    · rcases hhost c hc with hc | rfl
      · exact h.isUrlChar_of_mem (Or.inr (Or.inl hc))
      · rfl
    · obtain ⟨u, hu, rfl | hc⟩ := mem_withMark.mp hc
      · rfl
      · exact h.isUrlChar_of_mem (Or.inr (Or.inr (Or.inl (hport u hu ▸ hc))))
    · obtain ⟨hsame, hnone, hqueries⟩ := htail t ht
      rcases hc with hc | hc | hc
      · exact h.isUrlChar_of_mem (Or.inr (Or.inr (Or.inr (Or.inl (hsame ▸ hc)))))
      · obtain ⟨u, hu, rfl | hc⟩ := mem_withMark.mp hc
        · rfl
        · exact h.isUrlChar_of_mem (Or.inr (Or.inr (Or.inr (Or.inr (hqueries u hu ▸ hc)))))
      · rw [hnone] at hc
        exact absurd hc List.not_mem_nil
  · rw [List.all_eq_true]
    intro c hc
    obtain ⟨d, hd, rfl⟩ := List.mem_map.mp hc
    exact (toLower_spec d).2.1 (List.all_eq_true.mp h.scheme d hd)
  · intro c hc
    rcases hhost c hc with hc | rfl
    · exact h.host c hc
    · rfl
  · intro u hu c hc
    rw [hport u hu] at hc
    cases hold : parts.port with
    | none => exact absurd hc (by simp [parsed, hold])
    | some v => exact h.port v hold c (by simpa [parsed, hold] using hc)
  · intro t ht c hc
    exact hpath c ((htail t ht).1 ▸ hc)
  · intro t ht u hu c hc
    exact hquery c ((htail t ht).2.2 u hu ▸ hc)

/-- A scheme in lower case stays as it is. -/
theorem map_toLower_parsed (parts : Parts) : parts.parsed.scheme.map toLower = parts.parsed.scheme := by
  show (parts.scheme.map toLower).map toLower = parts.scheme.map toLower
  rw [List.map_map]
  exact List.map_congr_left fun c _ => (toLower_spec c).2.2

end Parts

/-! ## The normal form -/

/-- A part that is written if it is not empty. -/
def optional (u : Bytes) : Option Bytes := if u = [] then none else some u

theorem getD_optional (u : Bytes) : (optional u).getD [] = u := by
  unfold optional
  split
  · rename_i hnil
    exact hnil.symm
  · rfl

theorem eq_of_mem_optional {u v : Bytes} (h : v ∈ optional u) : v = u := by
  unfold optional at h
  split at h
  · exact absurd h (by simp)
  · exact (Option.some.inj h).symm

theorem withMark_optional (m : UInt8) (u : Bytes) : withMark m (optional u) = if u ≠ [] then m :: u else [] := by
  by_cases hnil : u = []
  · rw [optional, if_pos hnil, if_neg (not_not.mpr hnil)]
    rfl
  · rw [optional, if_neg hnil, if_pos hnil]
    rfl

namespace ParsedUrl

variable {p : ParsedUrl} {url : Bytes}

/-- The parts that `normalize` writes. -/
def normalParts (p : ParsedUrl) : Parts := ⟨p.scheme, p.host, none, some ⟨p.path, optional p.query, none⟩⟩

theorem normalize_eq (p : ParsedUrl) : p.normalize = p.normalParts.render := by
  show p.scheme ++ [58, 47, 47] ++ p.host ++ [47] ++ p.path ++ (if p.query ≠ [] then 63 :: p.query else []) =
    p.scheme ++ 58 :: ([47, 47] ++ (p.host ++ ([] ++ 47 :: (p.path ++ (withMark 63 (optional p.query) ++ [])))))
  rw [withMark_optional]
  simp

/-- The parts of a normal form. -/
theorem normalize_parts (h : (doParsing url).ok = true) :
    doParsing (doParsing url).normalize = { doParsing url with port := [], fragment := [] } := by
  obtain ⟨parts, hparts, rfl⟩ := exists_parts h
  rw [doParsing_render hparts, normalize_eq]
  have hnormal : parts.parsed.normalParts.WellFormed := by
    apply hparts.rewrite hparts.named (fun c hc => Or.inl hc) (fun u hu => absurd hu (by simp))
    intro t ht
    obtain rfl := Option.some.inj ht
    exact ⟨rfl, rfl, fun u hu => eq_of_mem_optional hu⟩
  rw [doParsing_render hnormal]
  show (⟨true, parts.parsed.scheme.map toLower, parts.host, [], parts.parsed.path,
    (optional parts.parsed.query).getD [], [], [], []⟩ : ParsedUrl) = _
  rw [Parts.map_toLower_parsed, getD_optional]
  rfl

/-- A normal form is its own normal form. -/
theorem normalize_normalize (h : (doParsing url).ok = true) :
    (doParsing (doParsing url).normalize).normalize = (doParsing url).normalize := by
  rw [normalize_parts h]
  rfl

/-- Two URLs with the same normal form have their scheme, host, path and query in common. -/
theorem parts_of_normalize_eq {url' : Bytes} (h : (doParsing url).ok = true) (h' : (doParsing url').ok = true)
    (hsame : (doParsing url).normalize = (doParsing url').normalize) :
    { doParsing url with port := [], fragment := [] } = { doParsing url' with port := [], fragment := [] } := by
  rw [← normalize_parts h, ← normalize_parts h', hsame]

/-- **A normal form is accepted**, and has the same scheme, host, path and query; so it is its own normal form
    (`normalize_normalize`), and two URLs with the same normal form have these parts in common
    (`parts_of_normalize_eq`). -/
theorem doParsing_normalize (h : (doParsing url).ok = true) :
    doParsing (doParsing url).normalize = { doParsing url with port := [], fragment := [] } :=
  normalize_parts h

/-- `HTTP://a.com:80/x?q#f`. -/
theorem doParsing_normalize_http : doParsing (doParsing (ascii "HTTP://a.com:80/x?q#f")).normalize =
    ⟨true, ascii "http", ascii "a.com", [], ascii "x", ascii "q", [], [], []⟩ := by
  rw [doParsing_normalize (by decide +kernel)]
  decide +kernel

/-! ## The inverted form -/

/-- The parts that `getInverted` writes, if there is a path or no query. -/
def invertedParts (p : ParsedUrl) : Parts :=
  ⟨p.scheme, invertDomain p.host, optional p.port, if p.path = [] then none else some ⟨p.path, optional p.query, none⟩⟩

theorem getInverted_eq (hquery : p.path = [] → p.query = []) : p.getInverted = p.invertedParts.render := by
  have hport : (if p.port.length ≠ 0 then ascii ":" ++ p.port else []) = withMark 58 (optional p.port) := by
    rw [withMark_optional]
    simp only [ne_eq, List.length_eq_zero_iff]
    rfl
  have htail : (if p.path.length ≠ 0 then ascii "/" ++ p.path else []) ++
      (if p.query ≠ [] then ascii "?" ++ p.query else []) = withMark 47 (p.invertedParts.tail.map Tail.render) := by
    by_cases hpath : p.path = []
    · rw [hquery hpath, hpath, invertedParts, if_pos hpath]
      rfl
    · rw [invertedParts, if_neg hpath, if_pos (fun hnil => hpath (List.length_eq_zero_iff.mp hnil))]
      show 47 :: p.path ++ (if p.query ≠ [] then 63 :: p.query else []) =
        47 :: (p.path ++ (withMark 63 (optional p.query) ++ []))
      rw [withMark_optional, List.append_nil]
      rfl
  unfold getInverted
  rw [hport, List.append_assoc, htail]
  show p.scheme ++ [58, 47, 47] ++ invertDomain p.host ++ withMark 58 (optional p.port) ++ _ =
    p.scheme ++ 58 :: ([47, 47] ++ (invertDomain p.host ++ (withMark 58 (optional p.port) ++ _)))
  simp [invertedParts]

/-- What stands in labels with a dot behind each. -/
theorem mem_dotted {ls : List Bytes} {d : Bytes} {c : UInt8} (hls : ∀ l ∈ ls, c ∈ l → c ∈ d)
    (h : c ∈ ls.flatMap (· ++ [46])) : c ∈ d ∨ c = 46 := by
  obtain ⟨l, hl, h⟩ := List.mem_flatMap.mp h
  rcases List.mem_append.mp h with h | h
  · exact Or.inl (hls l hl h)
  · exact Or.inr (List.mem_singleton.mp h)

/-- Turning a name round adds nothing but dots. -/
theorem mem_invertDomain {d : Bytes} {c : UInt8} (hc : c ∈ invertDomain d) : c ∈ d ∨ c = 46 := by
  have hlabel : ∀ l ∈ (labelsOf d).reverse, c ∈ l → c ∈ d := fun l hl h =>
    (infix_of_mem_tokens (List.mem_reverse.mp hl)).subset h
  rw [invertDomain_eq] at hc
  split at hc
  · exact mem_dotted hlabel hc
  · rcases List.eq_nil_or_concat' (labelsOf d).reverse with hnil | ⟨ls, l, hconcat⟩
    · rw [hnil] at hc
      exact absurd hc List.not_mem_nil
    · rw [hconcat] at hc hlabel
      rw [intercalate_concat] at hc
      rcases List.mem_append.mp hc with hc | hc
      · exact mem_dotted (fun l hl => hlabel l (List.mem_append_left _ hl)) hc
      · exact Or.inl (hlabel l (by simp) hc)

/-- A name does not get longer by being turned round. -/
theorem length_invertDomain_le (d : Bytes) : (invertDomain d).length ≤ d.length := by
  have hreverse : ((labelsOf d).reverse.flatMap (· ++ [46])).length = ((labelsOf d).flatMap (· ++ [46])).length := by
    rw [List.length_flatMap, List.length_flatMap, List.map_reverse, List.sum_reverse]
  have hle : ((labelsOf d).flatMap (· ++ [46])).length ≤ d.length + 1 := length_flatMap_tokens _ 46 d
  rw [invertDomain_eq]
  split
  · rename_i hhead
    -- the leading dot is one more than the labels need
    obtain ⟨c, d, rfl⟩ := List.exists_cons_of_ne_nil (l := d) (by rintro rfl; exact absurd hhead (by simp))
    obtain rfl := Option.some.inj hhead
    have hle' := length_flatMap_tokens (· == 46) 46 d
    rw [hreverse, labelsOf, tokens_cons_delim (by rfl), List.length_cons]
    exact hle'
  · rcases List.eq_nil_or_concat' (labelsOf d).reverse with hnil | ⟨ls, l, hconcat⟩
    · rw [hnil]
      exact Nat.zero_le _
    · rw [hconcat, List.flatMap_append, List.flatMap_singleton] at hreverse
      rw [hconcat, intercalate_concat]
      rw [List.length_append, List.length_append, List.length_singleton, ← Nat.add_assoc] at hreverse
      rw [List.length_append]
      exact Nat.le_of_succ_le_succ (Nat.le_trans (Nat.le_of_eq hreverse) hle)

/-- A name without labels is turned round into nothing. -/
theorem labelsOf_eq_nil_of_invertDomain {d : Bytes} (h : invertDomain d = []) : labelsOf d = [] := by
  have hlabels := (labelsOf_invertDomain d).1
  rw [h] at hlabels
  exact List.reverse_eq_nil_iff.mp hlabels.symm

theorem joinsLabels_iff (d : Bytes) : JoinsLabels (labelsOf d) d ↔ invertDomain (invertDomain d) = d := by
  rw [invertDomain_invertDomain]
  constructor
  · exact fun h => h.joined.symm
  · intro h
    have hjoins := joinsLabels_intercalate fun l hl => isLabel_of_mem (d := d) (l := l) hl
    rwa [h] at hjoins

/-- The fields that the inverted form has. -/
theorem parsed_invertedParts {parts : Parts} (hquery : parts.parsed.path = [] → parts.parsed.query = []) :
    parts.parsed.invertedParts.parsed = { parts.parsed with host := invertDomain parts.host, fragment := [] } := by
  show (⟨true, parts.parsed.scheme.map toLower, invertDomain parts.host, (optional parts.parsed.port).getD [], _, _, _,
    [], []⟩ : ParsedUrl) = ⟨true, parts.parsed.scheme, invertDomain parts.host, parts.parsed.port,
      parts.parsed.path, parts.parsed.query, [], [], []⟩
  rw [Parts.map_toLower_parsed, getD_optional]
  by_cases hpath : parts.parsed.path = []
  · have htail : parts.parsed.invertedParts.tail = none := if_pos hpath
    rw [htail, hquery hpath, hpath]
    rfl
  · have htail : parts.parsed.invertedParts.tail = some ⟨parts.parsed.path, optional parts.parsed.query, none⟩ :=
      if_neg hpath
    rw [htail, Option.bind_some, getD_optional]
    rfl

/-- A URL without a host is refused. -/
theorem doParsing_no_host {parts : Parts} (hnone : parts.host = []) (hscheme : parts.scheme.all isSchemeChar = true) :
    (doParsing parts.render).ok = false := by
  by_cases hchars : checkUrlCorrect parts.render = true
  · have hend : Ends (fun c => c == 58 || c == 47)
        (withMark 58 parts.port ++ withMark 47 (parts.tail.map Tail.render) : Bytes) :=
      ends_withMark_append rfl _ (ends_withMark rfl _)
    have hscan := scanTo_append (fun c hc => absurd hc List.not_mem_nil) hend
    rw [List.nil_append] at hscan
    unfold Parts.render at hchars ⊢
    rw [doParsing_eq hchars hscheme, parseHost_eq (all_isUrlChar hchars), hnone, List.nil_append, hscan]
    rfl
  · rw [doParsing, if_neg hchars]
    rfl

/-- A query that follows the host becomes a part of it. -/
theorem new_getInverted_ne {parts : Parts} (hpath : parts.parsed.path = []) (hquery : parts.parsed.query ≠ []) :
    new parts.parsed.getInverted true ≠ { parts.parsed with fragment := [] } := by
  intro heq
  have hok : (doParsing parts.parsed.getInverted).ok = true := congrArg ParsedUrl.ok heq
  obtain ⟨parts', hparts', hrender⟩ := exists_parts hok
  rw [← hrender, new, doParsing_render hparts'] at heq
  -- what has been read back has the same parts, so it is written with a slash that was not there
  have hhost : invertDomain parts'.host = parts.parsed.host := congrArg ParsedUrl.host heq
  have hport : parts'.port.getD [] = parts.parsed.port := congrArg ParsedUrl.port heq
  have hqueries : (parts'.tail.bind Tail.query).getD [] = parts.parsed.query := congrArg ParsedUrl.query heq
  have hscheme : parts'.scheme.map toLower = parts.parsed.scheme := congrArg ParsedUrl.scheme heq
  obtain ⟨t, query, htail, hq⟩ : ∃ t query, parts'.tail = some t ∧ t.query = some query := by
    cases htail : parts'.tail with
    | none =>
        rw [htail] at hqueries
        exact absurd hqueries.symm hquery
    | some t =>
        cases hq : t.query with
        | none =>
            rw [htail, Option.bind_some, hq] at hqueries
            exact absurd hqueries.symm hquery
        | some query => exact ⟨t, query, rfl, hq⟩
  rw [htail, Option.bind_some, hq, Option.getD_some] at hqueries
  have hlength := congrArg List.length hrender
  have hhosts : (invertDomain parts.parsed.host).length ≤ parts'.host.length := by
    rw [← hhost]
    exact Nat.le_trans (length_invertDomain_le _) (length_invertDomain_le _)
  have hports : (if parts.parsed.port.length ≠ 0 then ascii ":" ++ parts.parsed.port else []).length ≤
      (withMark 58 parts'.port).length := by
    rw [← hport]
    cases parts'.port with
    | none => exact Nat.le_refl 0
    | some port =>
        rw [Option.getD_some]
        split
        · exact Nat.le_refl _
        · exact Nat.zero_le _
  have hschemes : parts.parsed.scheme.length = parts'.scheme.length := by
    rw [← hscheme, List.length_map]
  have hnone : ¬ parts.parsed.path.length ≠ 0 := by simp [hpath]
  have htails : withMark 47 (parts'.tail.map Tail.render) =
      47 :: (t.path ++ (63 :: query ++ withMark 35 t.fragment)) := by
    rw [htail, Option.map_some, Tail.render, hq]
    rfl
  have hslashes : (ascii "://").length = 3 := by decide
  have hmark : (ascii "?").length = 1 := by decide
  rw [getInverted, if_neg hnone, if_pos hquery, Parts.render, htails, ← hqueries] at hlength
  simp only [List.length_append, List.length_cons, List.length_nil, hslashes, hmark] at hlength hports
  omega

/-- **When a URL survives being inverted and read back**, but for its fragment: if its host has no leading,
    trailing or doubled dot, and it has a path or no query. -/
theorem new_getInverted_iff (h : (doParsing url).ok = true) :
    new (doParsing url).getInverted true = { doParsing url with fragment := [] } ↔
      JoinsLabels (labelsOf (doParsing url).host) (doParsing url).host ∧
        ((doParsing url).path = [] → (doParsing url).query = []) := by
  obtain ⟨parts, hparts, rfl⟩ := exists_parts h
  rw [doParsing_render hparts]
  by_cases hquery : parts.parsed.path = [] → parts.parsed.query = []
  swap
  · obtain ⟨hpath, hne⟩ := Classical.not_imp.mp hquery
    exact iff_of_false (new_getInverted_ne hpath hne) fun hboth => hquery hboth.2
  rw [and_iff_left hquery, getInverted_eq hquery]
  by_cases hnil : invertDomain parts.host = []
  -- the host has only dots
  · have hscheme : parts.parsed.scheme.all isSchemeChar = true := by
      rw [List.all_eq_true]
      intro c hc
      obtain ⟨d, hd, rfl⟩ := List.mem_map.mp hc
      exact (toLower_spec d).2.1 (List.all_eq_true.mp hparts.scheme d hd)
    have hrefused : (doParsing parts.parsed.invertedParts.render).ok = false := doParsing_no_host hnil hscheme
    refine iff_of_false (fun heq => ?_) fun hjoins => hparts.named ?_
    · have hok : (new parts.parsed.invertedParts.render true).ok = true := congrArg ParsedUrl.ok heq
      exact absurd (hrefused.symm.trans hok) (by decide)
    · have hjoined := hjoins.joined
      rw [show parts.parsed.host = parts.host from rfl, labelsOf_eq_nil_of_invertDomain hnil] at hjoined
      exact hjoined
  · have hinverted : parts.parsed.invertedParts.WellFormed := by
      apply hparts.rewrite hnil (fun c hc => mem_invertDomain hc) (fun u hu => eq_of_mem_optional hu)
      intro t ht
      by_cases hpath : parts.parsed.path = []
      · rw [if_pos hpath] at ht
        exact absurd ht (by simp)
      · rw [if_neg hpath] at ht
        obtain rfl := Option.some.inj ht
        exact ⟨rfl, rfl, fun u hu => eq_of_mem_optional hu⟩
    have hread : doParsing parts.parsed.invertedParts.render =
        { parts.parsed with host := invertDomain parts.host, fragment := [] } := by
      rw [doParsing_render hinverted]
      exact parsed_invertedParts hquery
    rw [new, hread, joinsLabels_iff]
    constructor
    · exact fun heq => congrArg ParsedUrl.host heq
    · intro hhost
      show ({ parts.parsed with host := invertDomain (invertDomain parts.host), fragment := [] } : ParsedUrl) = _
      rw [show invertDomain (invertDomain parts.host) = parts.host from hhost]
      rfl

/-- `http://a.b.com/x?q`. -/
theorem new_getInverted_http :
    new (doParsing (ascii "http://a.b.com/x?q")).getInverted true =
      { doParsing (ascii "http://a.b.com/x?q") with fragment := [] } := by
  rw [new_getInverted_iff (by decide +kernel), joinsLabels_iff]
  decide +kernel

end ParsedUrl
end UrlParser
end Hiaux
