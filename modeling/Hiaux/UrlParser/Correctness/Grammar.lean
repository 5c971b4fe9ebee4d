import Hiaux.UrlParser.ParsedUrl

/-!
# `UrlParser.Correctness.Grammar` — which URLs are accepted, and how they are taken apart

What `doParsing` accepts is a grammar (`Parts.WellFormed`): a scheme, a host, and then a port, a path, a query
and a fragment that may be missing. Accepted URLs are those that the parts are written as, and the fields are
their parts (`doParsing_iff`). The characters `@`, `[` and `]` are refused from the start, so the user, the
password and the address in brackets are never there.
-/

namespace Hiaux
namespace UrlParser

open Lib Strings

/-! ## The grammar -/

/-- What may follow the host and the port. -/
structure Tail where
  path : Bytes
  query : Option Bytes
  fragment : Option Bytes
deriving DecidableEq, Repr

/-- The parts of a URL. -/
structure Parts where
  scheme : Bytes
  host : Bytes
  port : Option Bytes
  tail : Option Tail
deriving DecidableEq, Repr

/-- How the tail is written. -/
def Tail.render (t : Tail) : Bytes := t.path ++ (withMark 63 t.query ++ withMark 35 t.fragment)

namespace Parts

/-- How the parts are written. -/
def render (parts : Parts) : Bytes :=
  parts.scheme ++ 58 :: ([47, 47] ++ (parts.host ++ (withMark 58 parts.port ++
    withMark 47 (parts.tail.map Tail.render))))

/-- The parts of an accepted URL: each ends where the next one begins. -/
structure WellFormed (parts : Parts) : Prop where
  chars : checkUrlCorrect parts.render = true
  scheme : parts.scheme.all isSchemeChar = true
  named : parts.host ≠ []
  host : ∀ c ∈ parts.host, (c == 58 || c == 47) = false
  port : ∀ port ∈ parts.port, ∀ c ∈ port, (c == 47) = false
  path : ∀ t ∈ parts.tail, ∀ c ∈ t.path, (c == 35 || c == 63) = false
  query : ∀ t ∈ parts.tail, ∀ query ∈ t.query, ∀ c ∈ query, (c == 35) = false

/-- The fields that they give. -/
def parsed (parts : Parts) : ParsedUrl where
  ok := true
  scheme := parts.scheme.map toLower
  host := parts.host
  port := parts.port.getD []
  path := (parts.tail.map Tail.path).getD []
  query := (parts.tail.bind Tail.query).getD []
  fragment := (parts.tail.bind Tail.fragment).getD []
  username := []
  password := []

end Parts

/-! ## Reading the parts back -/

namespace ParsedUrl

variable {p : ParsedUrl}

/-- A part that may be missing stops what comes before it at its mark. -/
theorem ends_withMark_append {stop : UInt8 → Bool} {m : UInt8} (hm : stop m = true) (o : Option Bytes) {rest : Bytes}
    (hrest : Ends stop rest) : Ends stop (withMark m o ++ rest) := by
  cases o with
  | none => exact hrest
  | some u => exact ends_cons hm

theorem ends_withMark {stop : UInt8 → Bool} {m : UInt8} (hm : stop m = true) (o : Option Bytes) :
    Ends stop (withMark m o) := by
  have h := ends_withMark_append hm o ends_nil
  rwa [List.append_nil] at h

theorem head?_withMark_ne {m c : UInt8} (hne : m ≠ c) (o : Option Bytes) : (withMark m o).head? ≠ some c := by
  cases o with
  | none => simp [withMark]
  | some u => exact fun h => hne (Option.some.inj h)

theorem parsePath_render (t : Tail) (hpath : ∀ c ∈ t.path, (c == 35 || c == 63) = false)
    (hquery : ∀ query ∈ t.query, ∀ c ∈ query, (c == 35) = false) :
    p.parsePath t.render = { p with
      path := t.path, query := t.query.getD p.query, fragment := t.fragment.getD p.fragment, ok := true } := by
  have hlast : marked 35 (fun _ => false) (withMark 35 t.fragment ++ []) = (t.fragment, []) :=
    marked_withMark (fun _ _ _ _ => rfl) ends_nil fun _ => by simp
  rw [List.append_nil] at hlast
  unfold parsePath Tail.render
  rw [scanTo_append hpath (ends_withMark_append rfl _ (ends_withMark rfl _))]
  dsimp only
  rw [marked_withMark hquery (ends_withMark rfl _) fun _ => head?_withMark_ne (by decide) t.fragment]
  dsimp only
  rw [hlast]

theorem parsePort_render {port : Option Bytes} {tail : Option Tail} (hport : ∀ u ∈ port, ∀ c ∈ u, (c == 47) = false)
    (hpath : ∀ t ∈ tail, ∀ c ∈ t.path, (c == 35 || c == 63) = false)
    (hquery : ∀ t ∈ tail, ∀ query ∈ t.query, ∀ c ∈ query, (c == 35) = false) :
    p.parsePort (withMark 58 port ++ withMark 47 (tail.map Tail.render)) = { p with
      port := port.getD p.port
      path := (tail.map Tail.path).getD p.path
      query := (tail.bind Tail.query).getD p.query
      fragment := (tail.bind Tail.fragment).getD p.fragment
      ok := true } := by
  unfold parsePort
  rw [marked_withMark hport (ends_withMark rfl _) fun _ => head?_withMark_ne (by decide) _]
  dsimp only
  cases tail with
  | none => rfl
  | some t =>
      show (if (47 : UInt8) = 47 then parsePath t.render { p with port := port.getD p.port } else _) = _
      rw [if_pos rfl, parsePath_render t (hpath t rfl) (hquery t rfl)]
      rfl

/-- Characters of URLs are no brackets, and no `@`. -/
theorem not_isUrlChar : isUrlChar 64 = false ∧ isUrlChar 91 = false ∧ isUrlChar 93 = false := by decide

/-- **There is no user in front of the host.** -/
theorem parseUser_eq {cur : Bytes} (hchars : cur.all isUrlChar = true) : p.parseUser cur = p.parseHost cur := by
  unfold parseUser
  refine if_neg fun hhead => ?_
  obtain ⟨hsplit, -, -⟩ := scanTo_spec (fun c => c == 64 || c == 47) cur
  have hmem : 64 ∈ cur := by
    rw [hsplit]
    exact List.mem_append_right _ (List.mem_of_head? hhead)
  exact absurd (List.all_eq_true.mp hchars 64 hmem) (by rw [not_isUrlChar.1]; decide)

/-- The host, where there are no brackets. -/
theorem parseHost_eq {cur : Bytes} (hchars : cur.all isUrlChar = true) :
    p.parseHost cur =
      let (host, rest) := scanTo (fun c => c == 58 || c == 47) cur
      if host = [] then p else { p with host := host }.parsePort rest := by
  unfold parseHost
  rw [if_neg]
  intro hhead
  have hmem := List.all_eq_true.mp hchars 91 (List.mem_of_head? hhead)
  exact absurd hmem (by rw [not_isUrlChar.2.1]; decide)

/-- A URL is checked up to its end. -/
theorem all_isUrlChar {scheme cur : Bytes} (h : checkUrlCorrect (scheme ++ 58 :: ([47, 47] ++ cur)) = true) :
    cur.all isUrlChar = true := by
  unfold checkUrlCorrect at h
  rw [List.all_append, List.all_cons, List.all_append, Bool.and_eq_true, Bool.and_eq_true, Bool.and_eq_true] at h
  exact h.2.2.2

/-- A URL that is checked has a scheme, up to its first colon, and `//` behind it. -/
theorem doParsing_eq {scheme cur : Bytes} (hchars : checkUrlCorrect (scheme ++ 58 :: ([47, 47] ++ cur)) = true)
    (hscheme : scheme.all isSchemeChar = true) :
    doParsing (scheme ++ 58 :: ([47, 47] ++ cur)) = { start with scheme := scheme.map toLower }.parseHost cur := by
  have hcolon : 58 ∉ scheme := fun hmem => absurd (List.all_eq_true.mp hscheme 58 hmem) (by decide)
  unfold doParsing
  rw [if_pos hchars, find_append_cons _ hcolon]
  dsimp only
  rw [List.take_left, if_pos hscheme, ← List.singleton_append, ← List.append_assoc, List.drop_left' (by simp)]
  rw [if_pos (by rfl)]
  exact parseUser_eq (all_isUrlChar hchars)

end ParsedUrl

/-- **Well-formed parts are read back** from what they are written as. -/
theorem doParsing_render {parts : Parts} (h : parts.WellFormed) : ParsedUrl.doParsing parts.render = parts.parsed := by
  obtain ⟨hchars, hscheme, hnamed, hhost, hport, hpath, hquery⟩ := h
  have hend : Ends (fun c => c == 58 || c == 47)
      (withMark 58 parts.port ++ withMark 47 (parts.tail.map Tail.render) : Bytes) :=
    ParsedUrl.ends_withMark_append rfl _ (ParsedUrl.ends_withMark rfl _)
  unfold Parts.render at hchars ⊢
  have hcur := ParsedUrl.all_isUrlChar hchars
  rw [ParsedUrl.doParsing_eq hchars hscheme, ParsedUrl.parseHost_eq hcur, scanTo_append hhost hend]
  dsimp only
  rw [if_neg hnamed, ParsedUrl.parsePort_render hport hpath hquery]
  rfl

/-! ## Accepted URLs -/

namespace ParsedUrl

variable {p : ParsedUrl} {cur : Bytes}

/-- **Anything is a path, a query and a fragment.** -/
theorem exists_tail (cur : Bytes) : ∃ t : Tail, t.render = cur ∧ (∀ c ∈ t.path, (c == 35 || c == 63) = false) ∧
    ∀ query ∈ t.query, ∀ c ∈ query, (c == 35) = false := by
  obtain ⟨hsplit, hpath, hend⟩ := scanTo_spec (fun c => c == 35 || c == 63) cur
  generalize scanTo (fun c => c == 35 || c == 63) cur = scanned at hsplit hpath hend
  obtain ⟨path, afterPath⟩ := scanned
  obtain ⟨hsplit', hquery, hnone, hsome⟩ := marked_spec 63 (fun c => c == 35) afterPath
  generalize marked 63 (fun c => c == 35) afterPath = scanned at hsplit' hquery hnone hsome
  obtain ⟨query, afterQuery⟩ := scanned
  -- what is left is a fragment, or nothing
  have hfragment : afterQuery = [] ∨ ∃ fragment, afterQuery = 35 :: fragment := by
    cases afterQuery with
    | nil => exact Or.inl rfl
    | cons c fragment =>
        refine Or.inr ⟨fragment, congrArg (· :: fragment) ?_⟩
        cases query with
        | some query => exact beq_iff_eq.mp (hsome (by simp) c rfl)
        | none =>
            have hstop := hend c (by rw [hsplit']; rfl)
            rcases Bool.or_eq_true_iff.mp hstop with hc | hc
            · exact beq_iff_eq.mp hc
            · exact absurd (congrArg some (beq_iff_eq.mp hc)) (hnone rfl)
  rcases hfragment with rfl | ⟨fragment, rfl⟩
  · refine ⟨⟨path, query, none⟩, ?_, hpath, hquery⟩
    rw [hsplit, hsplit']
    rfl
  · refine ⟨⟨path, query, some fragment⟩, ?_, hpath, hquery⟩
    rw [hsplit, hsplit']
    rfl

/-- What follows an accepted host is a port, and then nothing or a slash and a tail. -/
theorem exists_port (hp : p.ok = false) (hok : (p.parsePort cur).ok = true) :
    ∃ (port : Option Bytes) (tail : Option Tail),
      cur = withMark 58 port ++ withMark 47 (tail.map Tail.render) ∧ (∀ u ∈ port, ∀ c ∈ u, (c == 47) = false) ∧
      (∀ t ∈ tail, ∀ c ∈ t.path, (c == 35 || c == 63) = false) ∧
      ∀ t ∈ tail, ∀ query ∈ t.query, ∀ c ∈ query, (c == 35) = false := by
  obtain ⟨hsplit, hport, -, -⟩ := marked_spec 58 (fun c => c == 47) cur
  unfold parsePort at hok
  generalize marked 58 (fun c => c == 47) cur = scanned at hsplit hport hok
  obtain ⟨port, rest⟩ := scanned
  cases rest with
  | nil => exact ⟨port, none, hsplit, hport, fun t ht => absurd ht (by simp), fun t ht => absurd ht (by simp)⟩
  | cons c rest =>
      dsimp only at hok
      split at hok
      · rename_i hc
        obtain ⟨t, rfl, hpath, hquery⟩ := exists_tail rest
        refine ⟨port, some t, ?_, hport, ?_, ?_⟩
        · rw [hsplit, hc]
          rfl
        · intro t' ht'
          obtain rfl := Option.some.inj ht'
          exact hpath
        · intro t' ht'
          obtain rfl := Option.some.inj ht'
          exact hquery
      · exact absurd (hp.symm.trans hok) (by decide)

/-- **An accepted URL has parts.** -/
theorem exists_parts {url : Bytes} (hok : (doParsing url).ok = true) :
    ∃ parts : Parts, parts.WellFormed ∧ parts.render = url := by
  have hstart : start.ok = false := rfl
  by_cases hchars : checkUrlCorrect url = true
  swap
  · rw [doParsing, if_neg hchars] at hok
    exact absurd (hstart.symm.trans hok) (by decide)
  -- the scheme, the colon and the slashes
  obtain ⟨scheme, cur, rfl, hscheme⟩ : ∃ scheme cur, url = scheme ++ 58 :: ([47, 47] ++ cur) ∧
      scheme.all isSchemeChar = true := by
    rw [doParsing, if_pos hchars] at hok
    cases hfind : find 58 url with
    | none =>
        rw [hfind] at hok
        exact absurd (hstart.symm.trans hok) (by decide)
    | some len =>
        rw [hfind] at hok
        obtain ⟨-, hsplit⟩ := find_split hfind
        dsimp only at hok
        split at hok
        · rename_i hscheme
          split at hok
          · rename_i hslashes
            refine ⟨url.take len, (url.drop (len + 1)).drop 2, ?_, hscheme⟩
            rw [← hslashes, List.take_append_drop]
            exact hsplit
          · exact absurd (hstart.symm.trans hok) (by decide)
        · exact absurd (hstart.symm.trans hok) (by decide)
  rw [doParsing_eq hchars hscheme, parseHost_eq (all_isUrlChar hchars)] at hok
  obtain ⟨hsplit, hhost, -⟩ := scanTo_spec (fun c => c == 58 || c == 47) cur
  generalize scanTo (fun c => c == 58 || c == 47) cur = scanned at hsplit hhost hok
  obtain ⟨host, rest⟩ := scanned
  dsimp only at hsplit hhost hok
  split at hok
  · exact absurd (hstart.symm.trans hok) (by decide)
  · rename_i hnamed
    obtain ⟨port, tail, hrest, hport, hpath, hquery⟩ := exists_port (by rfl) hok
    have hrender : (⟨scheme, host, port, tail⟩ : Parts).render = scheme ++ 58 :: ([47, 47] ++ cur) := by
      rw [Parts.render, hsplit, hrest]
    exact ⟨⟨scheme, host, port, tail⟩, ⟨by rwa [hrender], hscheme, hnamed, hhost, hport, hpath, hquery⟩, hrender⟩

end ParsedUrl

/-- **The URLs that are accepted, and what is made of them**: those that well-formed parts are written as, and
    the parts, with the scheme in lower case. -/
theorem doParsing_iff (url : Bytes) (p : ParsedUrl) :
    ParsedUrl.doParsing url = p ∧ p.ok = true ↔
      ∃ parts : Parts, parts.WellFormed ∧ parts.render = url ∧ p = parts.parsed := by
  constructor
  · rintro ⟨rfl, hok⟩
    obtain ⟨parts, hparts, rfl⟩ := ParsedUrl.exists_parts hok
    exact ⟨parts, hparts, rfl, doParsing_render hparts⟩
  · rintro ⟨parts, hparts, rfl, rfl⟩
    exact ⟨doParsing_render hparts, rfl⟩

end UrlParser
end Hiaux
